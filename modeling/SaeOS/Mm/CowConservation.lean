import SaeOS.Lib.Run
import SaeOS.Mm.CowRefinement

/-!
# Conservation of frames

Every reference to a frame belongs to an address space: the count of an owned frame is the number of
spaces that own it, and when all spaces are gone every frame has been given back as often as it was
handed out.

This holds in every run in which `fork_cow` never meets a page with the largest possible reference
count after it has taken another page (`NeverRefused`). If it does, it returns without handing the
child the pages taken so far, and their references are lost: `not_conserved_afterRefusal` is a run
that ends in such a state.
-/

namespace SaeOS.Paging

open Frame RadixTree

namespace System

open AddressSpace

variable {start sys sys' : System}

/-- The number of address spaces that own a frame. -/
def owners (sys : System) (f : ℕ) : ℕ :=
  ((live sys.spaces).filter fun s => decide (f ∈ s.ownedFrames)).length

/-- What the kernel promises about frames in runs of operations that meet `guard`, `start` being the
state before the first space. -/
structure Conserved (guard : System → Op → Prop) (start sys : System) : Prop where
  /-- The count of an owned frame is the number of spaces that own it. -/
  refcount : ∀ f, 0 < sys.owners f → sys.pool.refcount f = sys.owners f
  /-- A failed `fork_cow` leaves every count as it was. -/
  failedFork : ∀ i error, guard sys (.forkCow i) → (sys.step (.forkCow i)).1 = .failed error →
    (sys.step (.forkCow i)).2.pool.refcount = sys.pool.refcount
  /-- Once all spaces are gone, every frame has the references that it had before the first one, and
  a frame without references was given back as often as it was handed out. No frame was freed
  without a reference. -/
  released : live sys.spaces = [] → sys.pool.refcount = start.pool.refcount ∧
    ∀ f, start.pool.refcount f = 0 → sys.pool.allocated f = sys.pool.released f
  panicked : sys.pool.panicked = false

/-- The state before the first space, with an account of the frames that the kernel uses itself. -/
structure Fresh (start : System) : Prop where
  begins : Start start
  balanced : start.pool.Balanced
  panicked : start.pool.panicked = false

/-- `fork_cow` meets no page with the largest possible count after its first page. -/
def NeverRefused (sys : System) : Op → Prop
  | .forkCow i => ∀ s pre m post, sys.space i = some s → s.owned = pre ++ m :: post →
    pre ≠ [] → sys.pool.refcount m.frame ≠ maxRefcount
  | _ => True

/-- The account of a run. -/
structure Account (start sys : System) : Prop where
  inv : Inv sys
  count : ∀ f, sys.pool.refcount f =
    start.pool.refcount f + ((live sys.spaces).flatMap refs).count f
  own : ∀ f ∈ (live sys.spaces).flatMap refs, start.pool.refcount f = 0
  balanced : sys.pool.Balanced
  panicked : sys.pool.panicked = false

theorem Fresh.account (h : Fresh start) : Account start start where
  inv := h.begins.inv
  count f := by
    rw [h.begins.1]
    rfl
  own f hf := by
    rw [h.begins.1] at hf
    cases hf
  balanced := h.balanced
  panicked := h.panicked

/-- The account after references of the system were exchanged. -/
theorem Account.exchange (h : Account start sys) (hinv : Inv sys') {before after x : List ℕ}
    (hex : Transfer sys.pool sys'.pool before after)
    (hnew : ∀ f ∈ after, f ∈ (live sys.spaces).flatMap refs ∨ sys.pool.refcount f = 0)
    (hbefore : ((live sys.spaces).flatMap refs).Perm (before ++ x))
    (hafter : ((live sys'.spaces).flatMap refs).Perm (after ++ x)) : Account start sys' where
  inv := hinv
  count f := by
    have hold := h.count f
    have hmove := hex.count f
    rw [hbefore.count_eq, List.count_append] at hold
    rw [hafter.count_eq, List.count_append]
    omega
  own f hf := by
    rcases List.mem_append.mp (hafter.mem_iff.mp hf) with hin | hin
    · rcases hnew f hin with hold | hzero
      · exact h.own f hold
      · have := h.count f
        omega
    · exact h.own f (hbefore.mem_iff.mpr (List.mem_append_right _ hin))
  balanced := hex.balanced h.balanced
  panicked := hex.panicked.trans h.panicked

/-! ## Edits of one space -/

section Edits

variable {s s' : AddressSpace} {pool pool' : Pool} {rest : List AddressSpace} {a : ℕ}

theorem mapFresh_edit {flags : PageFlags} {contents : ℕ → UInt8} {r : Except AddressSpaceError Unit}
    (hold : pool.Holds s.refs) (hr : s.mapFresh a flags contents pool = (r, pool', s')) :
    Edit pool pool' s s' := by
  rcases r with error | ⟨⟩
  · obtain ⟨rfl, hexchange, -⟩ := mapFresh_error hr
    exact Edit.of_keep hexchange rfl rfl
  · obtain ⟨f, hmapped⟩ := mapFresh_ok hr hold
    exact hmapped.edit hold

theorem unmapFree_edit {r : Except AddressSpaceError UnmappedMapping} (hwf : s.WellFormed)
    (hold : pool.Holds s.refs) (hr : s.unmapFree a pool = (r, pool', s')) :
    Edit pool pool' s s' := by
  rcases r with error | u
  · obtain ⟨rfl, rfl, -⟩ := unmapFree_error hr
    exact Edit.refl _ _
  · exact (unmapFree_ok hwf hold hr).edit hold

theorem setLeafFlags_edit (flags : PageFlags) :
    Edit pool pool s (s.setLeafFlags a flags pool).2 := by
  rcases hleaf : s.leaf a with _ | entry
  · rw [setLeafFlags_of_none hleaf]
    exact Edit.refl _ _
  · rw [setLeafFlags_of_leaf hleaf]
    exact Edit.of_keep (Exchange.refl _ _) (tables_setLeaf s a _) rfl

theorem protect_edit (flags : PageFlags) : Edit pool pool s (s.protect a flags pool).2 := by
  unfold AddressSpace.protect
  split
  · exact Edit.refl _ _
  · exact setLeafFlags_edit flags

theorem protectInaccessible_edit : Edit pool pool s (s.protectInaccessible a pool).2 := by
  unfold AddressSpace.protectInaccessible
  split
  · exact Edit.refl _ _
  · exact setLeafFlags_edit _

/-- Storing a byte exchanges nothing. -/
theorem storeByte_edit {offset : ℕ} {byte : UInt8} {entry : Entry} (h : Ready pool s rest)
    (ha : UserPage a) (hleaf : s.leaf a = some entry) (hwritable : entry.flags.writable = true) :
    Edit pool (storeByte pool entry.frame offset byte) s s := by
  refine ⟨fill_exchange ?_, fun f hf => Or.inl hf⟩
  have hone := h.exclusiveSelf a entry ha hleaf hwritable
  have hin : entry.frame ∈ s.refs := List.mem_append_right _ (h.framesIn a entry ha hleaf)
  have hpos := List.count_pos_iff.mpr hin
  omega

theorem write_edit {byte : UInt8} (h : Ready pool s rest) :
    Edit pool (s.write a byte pool).2.1 s (s.write a byte pool).2.2 := by
  unfold AddressSpace.write
  by_cases hhalf : a ≥ lowerHalfEnd
  · rw [if_pos hhalf]
    exact Edit.refl _ _
  rw [if_neg hhalf]
  have hpage : UserPage (pageOf a) := userPage_pageOf (by omega)
  rcases hleaf : s.leaf (pageOf a) with _ | entry
  · exact Edit.refl _ _
  dsimp only
  by_cases hwritable : entry.flags.writable = true
  · rw [if_pos hwritable]
    exact storeByte_edit h hpage hleaf hwritable
  rw [if_neg hwritable]
  have hstep := resolveCow_step s a pool
  obtain ⟨hkept, -, -⟩ := h.resolveCow_kept hpage hstep
  have hedit := hstep.edit hpage h.wellFormed h.untracked
  rcases hr : s.resolveCow a pool with ⟨resolution, pool₁, s₁⟩
  rw [hr] at hkept hedit
  rcases resolution with _ | _ | _
  · exact hedit
  · dsimp only at hkept hedit ⊢
    rcases hleaf' : s₁.leaf (pageOf a) with _ | entry'
    · exact hedit
    · dsimp only
      split_ifs with hwritable'
      · exact hedit.trans (storeByte_edit (hkept.ready h) hpage hleaf' hwritable')
      · exact hedit
  · exact hedit

end Edits

/-! ## Steps -/

namespace Account

variable {i : ℕ} {s s' : AddressSpace} {pool' : Pool}

/-- The references of all spaces, seen from one of them. -/
theorem refs_perm_of_space (hs : sys.space i = some s) :
    ((live sys.spaces).flatMap refs).Perm (s.refs ++ (sys.others i).flatMap refs) ∧
      ∀ s', ((live (sys.spaces.set i (some s'))).flatMap refs).Perm
        (s'.refs ++ (sys.others i).flatMap refs) := by
  obtain ⟨hperm, hperm'⟩ := live_perm hs
  exact ⟨hperm.flatMap_right _, fun s' => (hperm' s').flatMap_right _⟩

/-- An edit of one space is a move on the account. -/
theorem edit (h : Account start sys) (hs : sys.space i = some s)
    (hedit : Edit sys.pool pool' s s') (hinv : Inv ⟨pool', sys.spaces.set i (some s')⟩) :
    Account start ⟨pool', sys.spaces.set i (some s')⟩ := by
  obtain ⟨hbefore, hafter⟩ := refs_perm_of_space hs
  refine h.exchange hinv hedit.exchange.toTransfer (fun f hf => ?_) hbefore (hafter s')
  by_cases hold : f ∈ s.refs
  · exact Or.inl (hbefore.mem_iff.mpr (List.mem_append_left _ hold))
  · exact Or.inr (hedit.exchange.fresh f hf hold)

/-- Operations on one space. -/
theorem withSpace (h : Account start sys)
    {operation : AddressSpace → Pool → Result × Pool × AddressSpace}
    (hinv : Inv (sys.withSpace i operation).2)
    (hedit : ∀ s rest, Ready sys.pool s rest →
      Edit sys.pool (operation s sys.pool).2.1 s (operation s sys.pool).2.2) :
    Account start (sys.withSpace i operation).2 := by
  unfold System.withSpace at hinv ⊢
  rcases hs : sys.space i with _ | s
  · exact h
  · rw [hs] at hinv
    exact h.edit hs (hedit s _ (h.inv.ready hs)) hinv

theorem newSpace (h : Account start sys) : Account start (sys.step .newSpace).2 := by
  have hinv := (h.inv.step_follow .newSpace).1
  simp only [step] at hinv ⊢
  rcases hnew : AddressSpace.new sys.pool with ⟨error | s, pool'⟩
  · rw [hnew] at hinv
    refine h.exchange (x := (live sys.spaces).flatMap refs) hinv (new_error hnew).1.toTransfer
      (fun f hf => ?_) (List.Perm.refl _) (List.Perm.refl _)
    exact absurd hf List.not_mem_nil
  · rw [hnew] at hinv
    have hexchange := (new_ok hnew).1
    refine h.exchange (x := (live sys.spaces).flatMap refs) hinv hexchange.toTransfer
      (fun f hf => Or.inr (hexchange.fresh f hf List.not_mem_nil)) (List.Perm.refl _) ?_
    have happend : live (sys.spaces ++ [some s]) = live sys.spaces ++ [s] := List.filterMap_append
    dsimp only
    rw [happend]
    exact (List.perm_append_singleton s _).flatMap_right _

theorem dropSpace (h : Account start sys) (i : ℕ) :
    Account start (sys.step (.dropSpace i)).2 := by
  have hinv := (h.inv.step_follow (.dropSpace i)).1
  simp only [step] at hinv ⊢
  rcases hs : sys.space i with _ | s
  · exact h
  · rw [hs] at hinv
    have hready := h.inv.ready hs
    exact h.exchange hinv (drop_exchange hready.heldSelf).toTransfer
      (fun f hf => absurd hf List.not_mem_nil) (refs_perm_of_space hs).1 (List.Perm.refl _)

/-- The tables of a forked space are frames that were free. -/
theorem forkCow_fresh {pool : Pool} {child : AddressSpace} (hwf : s.WellFormed)
    (hframes : s.ownedFrames.Nodup) (hold : pool.Holds s.ownedFrames)
    (hok : s.forkCow pool = (.ok child, pool', s')) : ∀ f ∈ child.tables, pool.refcount f = 0 := by
  intro f hf
  by_contra hused
  rcases forkCow_spec hwf hframes (List.Subset.refl _) hold with
    ⟨child', pool₁, s₁, hok', hfork⟩ | ⟨error, pool₁, s₁, done, leak, herror, -⟩
  rotate_left
  · rw [hok] at herror
    cases herror
  rw [hok] at hok'
  cases hok'
  have htracked : pool.tracked f = true := by
    rcases hfork.transfer.new_tracked f (List.mem_append_left _ hf) with hin | ht
    · cases hin
    · exact ht
  have hnot : f ∉ s.ownedFrames := hfork.apart.disjoint f hf
  -- if the frame had a reference, the fork would have kept away from it
  have hheld : pool.Holds (s.ownedFrames ++ [f]) := by
    intro g
    obtain ⟨hcount, htr⟩ := hold g
    rw [List.count_append, count_singleton_eq]
    refine ⟨?_, fun hg => ?_⟩
    · split_ifs with heq
      · rw [heq, List.count_eq_zero_of_not_mem hnot]
        omega
      · simpa using hcount
    · rcases List.mem_append.mp hg with hin | hin
      · exact htr hin
      · exact List.mem_singleton.mp hin ▸ htracked
  rcases forkCow_spec hwf hframes (List.subset_append_left _ _) hheld with
    ⟨child', pool₁, s₁, hok', hfork'⟩ | ⟨error, pool₁, s₁, done, leak, herror, -⟩
  · rw [hok] at hok'
    cases hok'
    exact hfork'.apart.disjoint f hf (List.mem_append_right _ (List.mem_singleton_self f))
  · rw [hok] at herror
    cases herror

/-- Without a refused page, a failed fork moves nothing. -/
theorem forkCow_cases (h : Account start sys) (hs : sys.space i = some s)
    (hguard : NeverRefused sys (.forkCow i)) :
    (∃ child pool' s', s.forkCow sys.pool = (.ok child, pool', s') ∧
        ForkOk s s' child sys.pool pool' ((s :: sys.others i).flatMap refs)) ∨
      ∃ error pool' s' done, s.forkCow sys.pool = (.error error, pool', s') ∧
        ForkError s s' sys.pool pool' error done [] := by
  have hready := h.inv.ready hs
  rcases forkCow_spec hready.wellFormed (hready.ledger.frames s List.mem_cons_self)
      (ownedFrames_subset s _) hready.ledger.held with hok | ⟨error, pool', s', done, leak, herror, hfork⟩
  · exact Or.inl hok
  · refine Or.inr ⟨error, pool', s', done, herror, ?_⟩
    -- a refused page must have been the first one, and then nothing was taken
    have hnil : leak = [] := by
      rcases hfork.saturated hready.noDevices with hnil | ⟨pre, m, post, hsplit, hcount, hleak⟩
      · exact hnil
      · rcases pre with _ | ⟨m', pre⟩
        · exact hleak
        · exact absurd hcount (hguard s (m' :: pre) m post hs hsplit (by simp))
    exact hnil ▸ hfork

theorem forkCow (h : Account start sys) (hguard : NeverRefused sys (.forkCow i)) :
    Account start (sys.step (.forkCow i)).2 := by
  have hinv := (h.inv.step_follow (.forkCow i)).1
  simp only [step] at hinv ⊢
  rcases hs : sys.space i with _ | s
  · exact h
  rw [hs] at hinv
  dsimp only at hinv ⊢
  obtain ⟨hbefore, hafter⟩ := refs_perm_of_space hs
  rcases h.forkCow_cases hs hguard with
    ⟨child, pool', s', hok, hfork⟩ | ⟨error, pool', s', done, herror, hfork⟩
  · rw [hok] at hinv ⊢
    refine h.exchange (x := (live sys.spaces).flatMap refs) hinv hfork.transfer (fun f hf => ?_)
      (List.Perm.refl _) ?_
    · -- new tables are free frames, and the pages are the parent's
      rcases List.mem_append.mp hf with htable | hframe
      · have hready := h.inv.ready hs
        exact Or.inr (forkCow_fresh hready.wellFormed (hready.ledger.frames s List.mem_cons_self)
          hready.heldSelf.of_append_right hok f htable)
      · refine Or.inl (hbefore.mem_iff.mpr (List.mem_append_left _ (List.mem_append_right _ ?_)))
        unfold ownedFrames at hframe ⊢
        rwa [hfork.owned] at hframe
    · have happend : live (sys.spaces.set i (some s') ++ [some child]) =
          live (sys.spaces.set i (some s')) ++ [child] := List.filterMap_append
      dsimp only
      rw [happend]
      refine ((List.perm_append_singleton child _).flatMap_right _).trans ?_
      rw [List.flatMap_cons]
      refine List.Perm.append_left _ ((hafter s').trans ?_)
      rw [hfork.parent.refs_eq]
      exact hbefore.symm
  · rw [herror] at hinv ⊢
    refine h.exchange (x := (live sys.spaces).flatMap refs) hinv hfork.transfer
      (fun f hf => absurd hf List.not_mem_nil) (List.Perm.refl _) ?_
    refine (hafter s').trans ?_
    rw [hfork.parent.refs_eq]
    exact hbefore.symm

/-- One step without a refused page keeps the account. -/
theorem step (h : Account start sys) {op : Op} (hguard : NeverRefused sys op) :
    Account start (sys.step op).2 := by
  have hinv := (h.inv.step_follow op).1
  cases op with
  | newSpace => exact h.newSpace
  | mapOwned i a flags contents =>
    refine h.withSpace hinv fun s rest hready => ?_
    exact mapFresh_edit hready.heldSelf rfl
  | unmap i a =>
    refine h.withSpace hinv fun s rest hready => ?_
    exact unmapFree_edit hready.wellFormed hready.heldSelf rfl
  | protect i a flags => exact h.withSpace hinv fun s rest _ => protect_edit flags
  | protectInaccessible i a => exact h.withSpace hinv fun s rest _ => protectInaccessible_edit
  | forkCow i => exact h.forkCow hguard
  | resolveCow i a =>
    refine h.withSpace hinv fun s rest hready => ?_
    by_cases hhalf : a ≥ lowerHalfEnd
    · rw [if_pos hhalf]
      exact Edit.refl _ _
    · rw [if_neg hhalf]
      exact (resolveCow_step s a sys.pool).edit (userPage_pageOf (by omega)) hready.wellFormed
        hready.untracked
  | write i a byte => exact h.withSpace hinv fun s rest hready => write_edit hready
  | dropSpace i => exact h.dropSpace i

/-- The references to a frame that some space owns are the spaces that own it. -/
theorem count_eq_owners (h : Account start sys) {f : ℕ} (hf : 0 < sys.owners f) :
    ((live sys.spaces).flatMap refs).count f = sys.owners f := by
  have howned : f ∈ (live sys.spaces).flatMap ownedFrames := by
    obtain ⟨s, hs⟩ := List.exists_mem_of_length_pos hf
    rw [List.mem_filter] at hs
    exact List.mem_flatMap.mpr ⟨s, hs.1, by simpa using hs.2⟩
  have htables : ((live sys.spaces).flatMap AddressSpace.tables).count f = 0 :=
    List.count_eq_zero_of_not_mem fun hin => h.inv.ledger.apart.disjoint f hin howned
  rw [(refs_perm _).count_eq, List.count_append, htables, Nat.zero_add]
  unfold owners
  -- every space owns the frame at most once
  have hframes := h.inv.ledger.frames
  generalize live sys.spaces = spaces at hframes
  induction spaces with
  | nil => rfl
  | cons s spaces ih =>
    have hrest := ih fun t ht => hframes t (List.mem_cons_of_mem s ht)
    rw [List.flatMap_cons, List.count_append, hrest, List.filter_cons]
    by_cases hin : f ∈ s.ownedFrames
    · rw [if_pos (by simpa using hin), List.length_cons,
        List.count_eq_one_of_mem (hframes s List.mem_cons_self) hin]
      omega
    · rw [if_neg (by simpa using hin), List.count_eq_zero_of_not_mem hin]
      omega

theorem refcount_eq (h : Account start sys) {f : ℕ} (hf : 0 < sys.owners f) :
    sys.pool.refcount f = sys.owners f := by
  have hcount := h.count_eq_owners hf
  have hmem : f ∈ (live sys.spaces).flatMap refs := List.count_pos_iff.mp (by omega)
  rw [h.count f, h.own f hmem, hcount, Nat.zero_add]

theorem failedFork (h : Account start sys) {i : ℕ} {error : AddressSpaceError}
    (hguard : NeverRefused sys (.forkCow i)) (herror : (sys.step (.forkCow i)).1 = .failed error) :
    (sys.step (.forkCow i)).2.pool.refcount = sys.pool.refcount := by
  simp only [System.step] at herror ⊢
  rcases hs : sys.space i with _ | s
  · rfl
  rw [hs] at herror
  dsimp only at herror ⊢
  rcases h.forkCow_cases hs hguard with
    ⟨child, pool', s', hok, hfork⟩ | ⟨error, pool', s', done, hfailed, hfork⟩
  · rw [hok] at herror
    cases herror
  · rw [hfailed]
    funext f
    have := hfork.transfer.count f
    simpa using this

theorem released (h : Account start sys) (hnone : live sys.spaces = []) :
    sys.pool.refcount = start.pool.refcount ∧
      ∀ f, start.pool.refcount f = 0 → sys.pool.allocated f = sys.pool.released f := by
  have hsame : sys.pool.refcount = start.pool.refcount := by
    funext f
    rw [h.count f, hnone]
    rfl
  refine ⟨hsame, fun f hf => ?_⟩
  rw [h.balanced f, hsame, if_pos hf, Nat.add_zero]

end Account

/-- One operation, as a relation. -/
def Steps (sys : System) (op : Op) (sys' : System) : Prop :=
  sys' = (sys.step op).2

/-- In every run in which no fork meets a page with the largest possible count after its first page,
frames are conserved. -/
theorem reachable_conserved {start sys : System} (hstart : Fresh start)
    (h : Run.Reachable (fun s => s = start) (Run.Guarded NeverRefused Steps) sys) :
    Conserved NeverRefused start sys := by
  have haccount : Account start sys := by
    refine h.invariant (P := Account start) ?_ ?_
    · rintro s rfl
      exact hstart.account
    · rintro s op s' hs ⟨hguard, rfl⟩
      exact hs.step hguard
  exact ⟨fun f hf => haccount.refcount_eq hf,
    fun i error hguard herror => haccount.failedFork hguard herror, haccount.released,
    haccount.panicked⟩


/-- A process with one page. -/
def onePage : System :=
  ((sixteenFrames.step .newSpace).2.step (.mapOwned 0 0x400000 .userReadWrite fun _ => 7)).2

/-- A process with one page that forks. -/
theorem reachable_conserved_oneFork :
    (onePage.step (.forkCow 0)).1 = .done ∧
      Conserved NeverRefused sixteenFrames (onePage.step (.forkCow 0)).2 := by
  have hstart : Fresh sixteenFrames :=
    ⟨⟨rfl, fun f hf => by simpa [sixteenFrames] using hf⟩, fun _ => rfl, rfl⟩
  have hguard : NeverRefused onePage (.forkCow 0) := by
    intro s pre m post hs hsplit hpre
    have hone : (onePage.space 0).map (fun s => s.owned.length) = some 1 := by decide +kernel
    rw [hs, Option.map_some, hsplit, List.length_append, List.length_cons] at hone
    have hpos := List.length_pos_iff.mpr hpre
    have hlength := Option.some.inj hone
    omega
  refine ⟨by decide +kernel, reachable_conserved hstart ?_⟩
  have hnew : Run.Guarded NeverRefused Steps sixteenFrames .newSpace
      (sixteenFrames.step .newSpace).2 := ⟨trivial, rfl⟩
  have hmap : Run.Guarded NeverRefused Steps (sixteenFrames.step .newSpace).2
      (.mapOwned 0 0x400000 .userReadWrite fun _ => 7) onePage := ⟨trivial, rfl⟩
  exact .next (.next (.next (.start rfl) hnew) hmap) ⟨hguard, rfl⟩

end System

end SaeOS.Paging
