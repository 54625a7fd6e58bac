import SaeOS.Mm.StaticHeap

/-!
# Blocks of the static heap never overlap

The blocks in use, the blocks of the classes and the nodes of the free list tile the heap at every
moment. Each operation takes a region out of the tiling and puts its pieces back, so that one lemma per
operation carries the tiling through a run.

The module introduces:

* `Gapped free` — the free list is sorted, and no two of its nodes touch.
* `Inv storage a lists held` — the allocator's lists and the blocks `held` by others tile the heap.
-/

namespace SaeOS.StaticHeap

open Layout

/-! ## The free list -/

/-- Sorted by address, with a gap between any two regions. -/
def Gapped (free : List Region) : Prop :=
  free.Pairwise fun a b => a.stop < b.start

theorem endAddr_of_lt {r : Region} (h : r.stop < wordLimit) : endAddr r = r.stop :=
  Nat.min_eq_left (Nat.le_sub_one_of_lt h)

theorem alignUp_some {addr align s : ℕ} (h : alignUp addr align = some s) :
    addr ≤ s ∧ align ∣ s := by
  unfold alignUp at h
  split_ifs at h with hpow
  obtain ⟨value, hadd, rfl⟩ := Option.map_eq_some_iff.mp h
  obtain ⟨rfl, -⟩ := checkedAdd_eq_some hadd
  have hpos : 0 < align := by
    rw [← Decidable.not_not.mp hpow]
    exact Nat.two_pow_pos _
  refine ⟨?_, Nat.dvd_sub_mod _⟩
  have hmod := Nat.mod_lt (addr + (align - 1)) hpos
  omega

/-- A multiple is where it should be. -/
theorem alignUp_self {addr : ℕ} (k : ℕ) (hdvd : 2 ^ k ∣ addr) (hlt : addr + (2 ^ k - 1) < wordLimit) :
    alignUp addr (2 ^ k) = some addr := by
  obtain ⟨q, rfl⟩ := hdvd
  have hpos := Nat.two_pow_pos k
  unfold alignUp
  rw [Nat.log2_two_pow, if_neg (by simp), checkedAdd_of_lt hlt, Option.map_some, Nat.mul_add_mod,
    Nat.mod_eq_of_lt (by omega)]
  congr 1
  omega

/-- A region apart from the nodes goes between those before and those behind it. -/
theorem findGap_spec (addr stop : ℕ) {free : List Region} (hgapped : Gapped free)
    (hlt : ∀ r ∈ free, r.stop < wordLimit)
    (hapart : ∀ r ∈ free, r.stop ≤ addr ∨ stop ≤ r.start) (hpos : ∀ r ∈ free, 0 < r.size) :
    ∃ before after, LinkedListAllocator.findGap addr stop free = some (before, after) ∧
      free = before ++ after ∧ (∀ r ∈ before, r.stop ≤ addr) ∧ ∀ r ∈ after, stop ≤ r.start := by
  induction free with
  | nil => exact ⟨[], [], rfl, rfl, (fun _ h => absurd h (by simp)), (fun _ h => absurd h (by simp))⟩
  | cons node rest ih =>
    obtain ⟨hhead, htail⟩ := List.pairwise_cons.mp hgapped
    rw [LinkedListAllocator.findGap]
    by_cases hbefore : stop ≤ node.start
    · refine ⟨[], node :: rest, if_pos hbefore, rfl, (fun _ h => absurd h (by simp)), fun r hr => ?_⟩
      rcases List.mem_cons.mp hr with rfl | hr
      · exact hbefore
      · have hgap := hhead r hr
        unfold Region.stop at hgap
        omega
    · have hnode := (hapart node List.mem_cons_self).resolve_right hbefore
      obtain ⟨before, after, heq, rfl, hle, hge⟩ := ih htail
        (fun r hr => hlt r (List.mem_cons_of_mem _ hr))
        (fun r hr => hapart r (List.mem_cons_of_mem _ hr))
        fun r hr => hpos r (List.mem_cons_of_mem _ hr)
      have hnot : ¬ (addr < endAddr node ∧ stop > node.start) := by
        rw [endAddr_of_lt (hlt node List.mem_cons_self)]
        omega
      refine ⟨node :: before, after, ?_, rfl, fun r hr => ?_, hge⟩
      · rw [if_neg hbefore, if_neg hnot, heq]
        rfl
      · rcases List.mem_cons.mp hr with rfl | hr
        · exact hnode
        · exact hle r hr

/-- Joining with the node before keeps the tiling, and leaves a gap there. -/
theorem mergePrevious_spec {lo hi : ℕ} (hhi : hi < wordLimit) {before l : List Region}
    {inserted : Region} (htiling : Tiling lo hi (inserted :: (before ++ l))) (hgapped : Gapped before)
    (hle : ∀ r ∈ before, r.stop ≤ inserted.start) :
    ∃ before' merged, LinkedListAllocator.mergePrevious before inserted = (before', merged) ∧
      Tiling lo hi (merged :: (before' ++ l)) ∧ Gapped before' ∧
      (∀ r ∈ before', r.stop < merged.start) ∧ merged.stop = inserted.stop ∧
      before'.Sublist before ∧ (merged.start = inserted.start ∨ ∃ r ∈ before, merged.start = r.start) := by
  rcases List.eq_nil_or_concat' before with rfl | ⟨before', previous, rfl⟩
  · exact ⟨[], inserted, rfl, htiling, hgapped, (fun _ h => absurd h (by simp)), rfl, .slnil, Or.inl rfl⟩
  · have hprevious : previous ∈ before' ++ [previous] := by simp
    have hstop : previous.stop < wordLimit := by
      have hwithin := htiling.within previous (by simp)
      exact lt_of_le_of_lt hwithin.2 hhi
    obtain ⟨hgapped', -, hgap⟩ := List.pairwise_append.mp hgapped
    have hgap' : ∀ r ∈ before', r.stop < previous.start := fun r hr =>
      hgap r hr previous (List.mem_singleton.mpr rfl)
    unfold LinkedListAllocator.mergePrevious
    rw [List.getLast?_concat]
    dsimp only
    rw [endAddr_of_lt hstop]
    by_cases htouch : previous.stop = inserted.start
    · rw [if_pos htouch, List.dropLast_concat]
      have hperm : (inserted :: (before' ++ [previous] ++ l)).Perm
          (previous :: inserted :: (before' ++ l)) := by
        rw [List.append_assoc]
        exact (List.Perm.cons _ List.perm_middle).trans (List.Perm.swap _ _ _)
      refine ⟨before', _, rfl, (htiling.perm hperm).merge htouch, hgapped', hgap', ?_,
        List.sublist_append_left _ _, Or.inr ⟨previous, hprevious, rfl⟩⟩
      unfold Region.stop at htouch ⊢
      dsimp only
      omega
    · rw [if_neg htouch]
      refine ⟨before' ++ [previous], inserted, rfl, htiling, hgapped, fun r hr => ?_, rfl,
        List.Sublist.refl _, Or.inl rfl⟩
      have hle' := hle r hr
      rcases List.mem_append.mp hr with hr' | hr'
      · have hpos := htiling.pos previous (by simp)
        have hlast := hle previous hprevious
        have hless := hgap' r hr'
        unfold Region.stop at hlast hless ⊢
        omega
      · rw [List.mem_singleton.mp hr'] at hle' ⊢
        omega

/-- Joining with the node behind keeps the tiling, and leaves a gap there. -/
theorem mergeSuccessor_spec {lo hi : ℕ} (hhi : hi < wordLimit) {after l : List Region}
    {merged : Region} (htiling : Tiling lo hi (merged :: (after ++ l))) (hgapped : Gapped after)
    (hge : ∀ r ∈ after, merged.stop ≤ r.start) :
    Tiling lo hi (LinkedListAllocator.mergeSuccessor merged after ++ l) ∧
      Gapped (LinkedListAllocator.mergeSuccessor merged after) ∧
      ∀ r ∈ LinkedListAllocator.mergeSuccessor merged after, merged.start ≤ r.start ∧
        (r.start = merged.start ∨ ∃ o ∈ after, r.start = o.start) := by
  have hstop : merged.stop < wordLimit := lt_of_le_of_lt (htiling.within merged (by simp)).2 hhi
  cases after with
  | nil =>
    refine ⟨htiling, List.pairwise_singleton _ _, fun r hr => ?_⟩
    rw [List.mem_singleton.mp hr]
    exact ⟨Nat.le_refl _, Or.inl rfl⟩
  | cons successor rest =>
    obtain ⟨hhead, htail⟩ := List.pairwise_cons.mp hgapped
    have hbehind : ∀ r ∈ successor :: rest, merged.start ≤ r.start := fun r hr => by
      have hr' := hge r hr
      unfold Region.stop at hr'
      omega
    rw [LinkedListAllocator.mergeSuccessor, endAddr_of_lt hstop]
    by_cases htouch : merged.stop = successor.start
    · rw [if_pos htouch]
      refine ⟨htiling.merge htouch, List.pairwise_cons.mpr ⟨fun r hr => ?_, htail⟩, fun r hr => ?_⟩
      · have hgap := hhead r hr
        unfold Region.stop at hgap htouch ⊢
        dsimp only
        omega
      · rcases List.mem_cons.mp hr with rfl | hr
        · exact ⟨Nat.le_refl _, Or.inl rfl⟩
        · exact ⟨hbehind r (List.mem_cons_of_mem _ hr), Or.inr ⟨r, List.mem_cons_of_mem _ hr, rfl⟩⟩
    · rw [if_neg htouch]
      refine ⟨htiling, List.pairwise_cons.mpr ⟨fun r hr => ?_, hgapped⟩, fun r hr => ?_⟩
      · have hfirst := hge successor List.mem_cons_self
        rcases List.mem_cons.mp hr with rfl | hr
        · omega
        · have hgap := hhead r hr
          unfold Region.stop at hgap hfirst htouch ⊢
          omega
      · rcases List.mem_cons.mp hr with rfl | hr
        · exact ⟨Nat.le_refl _, Or.inl rfl⟩
        · exact ⟨hbehind r hr, Or.inr ⟨r, hr, rfl⟩⟩

/-- The free list is in order and tiles the heap together with everything else. -/
structure FreeOk (storage : Storage) (free others : List Region) : Prop where
  tiling : Tiling storage.base (storage.base + heapSize) (free ++ others)
  gapped : Gapped free
  aligned : ∀ r ∈ free, 2 ^ nodeLog ∣ r.start

variable {storage : Storage} {free others : List Region}

theorem Storage.lt_wordLimit (storage : Storage) : storage.base + heapSize < wordLimit :=
  lt_of_le_of_lt storage.below (by decide)

theorem FreeOk.stop_lt (h : FreeOk storage free others) {r : Region} (hr : r ∈ free ++ others) :
    r.stop < wordLimit :=
  lt_of_le_of_lt (h.tiling.within r hr).2 storage.lt_wordLimit

theorem FreeOk.perm {others' : List Region} (h : FreeOk storage free others)
    (hperm : others.Perm others') : FreeOk storage free others' where
  tiling := h.tiling.perm (List.Perm.append_left _ hperm)
  gapped := h.gapped
  aligned := h.aligned

/-- A region held by someone goes into the list. -/
theorem FreeOk.insert {addr size : ℕ} (h : FreeOk storage free (⟨addr, size⟩ :: others))
    (haddr : 2 ^ nodeLog ∣ addr) (hsize : nodeSize ≤ size) :
    ∃ free', LinkedListAllocator.insertRegion free addr size = some free' ∧
      FreeOk storage free' others := by
  have htiling : Tiling storage.base (storage.base + heapSize) (⟨addr, size⟩ :: (free ++ others)) :=
    h.tiling.perm List.perm_middle
  obtain ⟨hhead, -⟩ := List.pairwise_cons.mp htiling.apart
  have hstop : addr + size < wordLimit := h.stop_lt (r := ⟨addr, size⟩) (by simp)
  have hself : alignUp addr (2 ^ nodeLog) = some addr := by
    refine alignUp_self nodeLog haddr ?_
    have hsmall : 2 ^ nodeLog - 1 < nodeSize := by decide
    omega
  obtain ⟨before, after, hgap, rfl, hle, hge⟩ := findGap_spec addr (addr + size) h.gapped
    (fun r hr => h.stop_lt (List.mem_append_left _ hr))
    (fun r hr => (hhead r (List.mem_append_left _ hr)).symm)
    fun r hr => h.tiling.pos r (List.mem_append_left _ hr)
  obtain ⟨hbefore, hafter, hcross⟩ := List.pairwise_append.mp h.gapped
  rw [List.append_assoc] at htiling
  obtain ⟨before', merged, hprevious, htiling', hgapped', hless, hstop', hsub, hstart⟩ :=
    mergePrevious_spec storage.lt_wordLimit htiling hbefore hle
  have hperm : (merged :: (before' ++ (after ++ others))).Perm
      (merged :: (after ++ (before' ++ others))) :=
    List.Perm.cons _ (List.perm_append_comm_assoc _ _ _)
  obtain ⟨htiling'', hgapped'', hfrom⟩ := mergeSuccessor_spec storage.lt_wordLimit
    (htiling'.perm hperm) hafter fun r hr => hstop' ▸ hge r hr
  refine ⟨before' ++ LinkedListAllocator.mergeSuccessor merged after, ?_, ?_, ?_, ?_⟩
  · unfold LinkedListAllocator.insertRegion
    rw [if_neg (by rw [hself]; simp [hsize]), checkedAdd_of_lt hstop]
    simp only [Option.bind_eq_bind, Option.bind_some, hgap, hprevious]
    rfl
  · refine htiling''.perm ?_
    rw [List.append_assoc]
    exact List.perm_append_comm_assoc _ _ _
  · refine List.pairwise_append.mpr ⟨hgapped', hgapped'', fun x hx y hy => ?_⟩
    exact lt_of_lt_of_le (hless x hx) (hfrom y hy).1
  · -- every node starts where a node or the region started
    have hmerged : 2 ^ nodeLog ∣ merged.start := by
      rcases hstart with heq | ⟨r, hr, heq⟩
      · rwa [heq]
      · rw [heq]
        exact h.aligned r (List.mem_append_left _ hr)
    intro r hr
    rcases List.mem_append.mp hr with hr | hr
    · exact h.aligned r (List.mem_append_left _ (hsub.subset hr))
    · rcases (hfrom r hr).2 with heq | ⟨o, ho, heq⟩
      · rwa [heq]
      · rw [heq]
        exact h.aligned o (List.mem_append_right _ ho)

/-- A region held by someone may be cut in two. -/
theorem FreeOk.split {r : Region} (h : FreeOk storage free (r :: others)) {n : ℕ} (hn : 0 < n)
    (hlt : n < r.size) :
    FreeOk storage free (⟨r.start, n⟩ :: ⟨r.start + n, r.size - n⟩ :: others) where
  tiling := by
    have htiling := (h.tiling.perm List.perm_middle).split hn hlt
    refine htiling.perm (List.Perm.symm ?_)
    exact List.perm_middle.trans (List.Perm.cons _ List.perm_middle)
  gapped := h.gapped
  aligned := h.aligned

/-- A node taken off the list is held by the taker. -/
theorem FreeOk.take {before after : List Region} {r : Region}
    (h : FreeOk storage (before ++ r :: after) others) :
    FreeOk storage (before ++ after) (r :: others) where
  tiling := by
    refine h.tiling.perm ?_
    rw [List.append_assoc, List.append_assoc]
    refine List.Perm.append_left _ ?_
    exact List.perm_middle.symm
  gapped := List.Pairwise.sublist (List.Sublist.append_left (List.sublist_cons_self r after) before)
    h.gapped
  aligned := fun o ho => h.aligned o (by
    rcases List.mem_append.mp ho with ho | ho
    · exact List.mem_append_left _ ho
    · exact List.mem_append_right _ (List.mem_cons_of_mem _ ho))

/-- Where a block fits in a region: what is left on either side is nothing or room for a node. -/
theorem allocFromRegion_some {region : Region} {size align s : ℕ} (hstop : region.stop < wordLimit)
    (h : LinkedListAllocator.allocFromRegion region size align = some s) :
    align ∣ s ∧ region.start ≤ s ∧ s + size ≤ region.stop ∧
      (s - region.start = 0 ∨ nodeSize ≤ s - region.start) ∧
      (region.stop - (s + size) = 0 ∨ nodeSize ≤ region.stop - (s + size)) := by
  unfold LinkedListAllocator.allocFromRegion at h
  rw [endAddr_of_lt hstop] at h
  obtain ⟨allocStart, halign, h⟩ := Option.bind_eq_some_iff.mp h
  obtain ⟨hle, hdvd⟩ := alignUp_some halign
  split_ifs at h with hbelow hfront
  obtain ⟨allocEnd, hadd, h⟩ := Option.bind_eq_some_iff.mp h
  obtain ⟨rfl, -⟩ := checkedAdd_eq_some hadd
  split_ifs at h with hover hexcess
  cases h
  exact ⟨hdvd, hle, by omega, by omega, by omega⟩

/-- `find_region` takes one node off the list. -/
theorem findRegion_some {size align s : ℕ} {region : Region} {rest : List Region}
    (h : LinkedListAllocator.findRegion size align free = some (region, s, rest)) :
    LinkedListAllocator.allocFromRegion region size align = some s ∧
      ∃ before after, free = before ++ region :: after ∧ rest = before ++ after := by
  induction free generalizing rest with
  | nil => cases h
  | cons node nodes ih =>
    rw [LinkedListAllocator.findRegion] at h
    cases hfit : LinkedListAllocator.allocFromRegion node size align with
    | some allocStart =>
      rw [hfit] at h
      cases h
      exact ⟨hfit, [], nodes, rfl, rfl⟩
    | none =>
      rw [hfit] at h
      obtain ⟨⟨found, allocStart, others⟩, hfound, heq⟩ := Option.map_eq_some_iff.mp h
      cases heq
      obtain ⟨hfit', before, after, rfl, rfl⟩ := ih hfound
      exact ⟨hfit', node :: before, after, rfl, rfl⟩

theorem addFreeRegion_spec {a : LinkedListAllocator} {addr size : ℕ}
    (h : FreeOk storage a.free (⟨addr, size⟩ :: others)) (haddr : 2 ^ nodeLog ∣ addr)
    (hsize : nodeSize ≤ size) :
    ∃ free', a.addFreeRegion addr size = { a with free := free' } ∧ FreeOk storage free' others := by
  obtain ⟨free', hinsert, hok⟩ := h.insert haddr hsize
  refine ⟨free', ?_, hok⟩
  rw [LinkedListAllocator.addFreeRegion, hinsert]

/-- Carving a block out of the first node that fits leaves the list in order, and the block is held. -/
theorem FreeOk.carve {a : LinkedListAllocator} (h : FreeOk storage a.free others) {size align s : ℕ}
    {region : Region} {rest : List Region}
    (hfind : LinkedListAllocator.findRegion size align a.free = some (region, s, rest))
    (halign : 2 ^ nodeLog ∣ align) (hdvd : 2 ^ nodeLog ∣ size) (hsize : 0 < size) :
    checkedAdd s size = some (s + size) ∧ align ∣ s ∧ s ≠ 0 ∧ ∃ free',
      LinkedListAllocator.returnRest { a with free := rest } region s (s + size) =
        { a with free := free' } ∧
      FreeOk storage free' (⟨s, size⟩ :: others) := by
  obtain ⟨hfit, before, after, hfree, rfl⟩ := findRegion_some hfind
  rw [hfree] at h
  have hmem : region ∈ before ++ region :: after ++ others := by simp
  have hwithin := h.tiling.within region hmem
  have hstop := h.stop_lt hmem
  obtain ⟨hs, hle, hend, hfront, hexcess⟩ := allocFromRegion_some hstop hfit
  have hstart := h.aligned region (by simp)
  have hpos := storage.pos
  have hnode : 0 < nodeSize := by decide
  have htaken := h.take
  refine ⟨checkedAdd_of_lt (by omega), hs, ?_, ?_⟩
  · have hbase := hwithin.1
    omega
  unfold LinkedListAllocator.returnRest
  rw [endAddr_of_lt hstop]
  dsimp only
  unfold Region.stop at hend hexcess ⊢
  -- the part in front of the block
  have hfront : ∃ free', (if s - region.start ≠ 0 then LinkedListAllocator.addFreeRegion
      { a with free := before ++ after } region.start (s - region.start)
        else { a with free := before ++ after }) = { a with free := free' } ∧
      FreeOk storage free' (⟨s, region.start + region.size - s⟩ :: others) := by
    by_cases hzero : s - region.start = 0
    · have heq : s = region.start := by omega
      refine ⟨before ++ after, if_neg (by omega), ?_⟩
      rw [heq, Nat.add_sub_cancel_left]
      exact htaken
    · have hsplit := htaken.split (n := s - region.start) (by omega) (by omega)
      have hrest : region.start + (s - region.start) = s := by omega
      have hless : region.size - (s - region.start) = region.start + region.size - s := by omega
      rw [hrest, hless] at hsplit
      obtain ⟨free', hadd, hok⟩ := addFreeRegion_spec (a := { a with free := before ++ after }) hsplit hstart
        (by omega)
      exact ⟨free', by rw [if_pos hzero, hadd], hok⟩
  obtain ⟨free', heq, hok⟩ := hfront
  rw [heq]
  -- the part behind it
  by_cases hzero : region.start + region.size - (s + size) = 0
  · refine ⟨free', if_neg (by omega), ?_⟩
    have hall : region.start + region.size - s = size := by omega
    rwa [hall] at hok
  · have hsplit := hok.split (n := size) hsize (by dsimp only; omega)
    dsimp only at hsplit
    have hless : region.start + region.size - s - size = region.start + region.size - (s + size) := by
      omega
    rw [hless] at hsplit
    have hs' : 2 ^ nodeLog ∣ s + size := Nat.dvd_add (Nat.dvd_trans halign hs) hdvd
    obtain ⟨free'', hadd, hok'⟩ := addFreeRegion_spec (a := { a with free := free' })
      (hsplit.perm (List.Perm.swap _ _ _)) hs' (by omega)
    exact ⟨free'', by rw [if_pos hzero, hadd], hok'⟩

/-! ## The classes -/

/-- The number of classes. -/
def classCount : ℕ := smallClasses.length

/-- The blocks of the classes. -/
def cachedBlocks (lists : ℕ → List ℕ) : List Region :=
  Region.cached classSize classCount lists

/-- The class lists hold the blocks of `lists`, and the heap is tiled by them, the free list and the
blocks `held` by others. -/
structure Inv (storage : Storage) (a : LinkedListAllocator) (lists : ℕ → List ℕ)
    (held : List Region) : Prop where
  free : FreeOk storage a.free (cachedBlocks lists ++ held)
  threads : ∀ k < classCount, a.memory.Threads (a.smallHeads k) (lists k)
  multiple : ∀ k < classCount, ∀ x ∈ lists k, classSize k ∣ x

variable {a : LinkedListAllocator} {lists : ℕ → List ℕ} {held : List Region} {k x : ℕ}

theorem classSize_eq (hk : k < classCount) : classSize k = 2 ^ (k + 4) := by
  have hall : ∀ k < classCount, classSize k = 2 ^ (k + 4) := by decide
  exact hall k hk

theorem classSize_ge (hk : k < classCount) : 16 ≤ classSize k := by
  rw [classSize_eq hk, Nat.pow_add]
  exact Nat.le_mul_of_pos_left 16 (Nat.two_pow_pos k)

theorem nodeAlign_dvd_classSize (hk : k < classCount) : 2 ^ nodeLog ∣ classSize k := by
  rw [classSize_eq hk]
  refine Nat.pow_dvd_pow 2 ?_
  have hlog : nodeLog = 3 := rfl
  omega

/-- The first word of a block of a class. -/
theorem word_within (hk : k < classCount) :
    (⟨x, 8⟩ : Region).Within (⟨x, classSize k⟩ : Region).start (⟨x, classSize k⟩ : Region).stop := by
  have hge := classSize_ge hk
  refine ⟨Nat.le_refl _, ?_⟩
  unfold Region.stop
  dsimp only
  omega

/-- A held block is apart from the blocks of the classes. -/
theorem Inv.word_apart {r : Region} (h : Inv storage a lists (r :: held)) {j y : ℕ}
    (hj : j < classCount) (hy : y ∈ lists j) : r.Apart ⟨y, 8⟩ := by
  have htiling := h.free.tiling
  rw [← List.append_assoc] at htiling
  have hcached : (⟨y, classSize j⟩ : Region) ∈ cachedBlocks lists :=
    Region.mem_cached.mpr ⟨j, hj, y, hy, rfl⟩
  have hapart := htiling.apart_append (List.mem_append_right a.free hcached) List.mem_cons_self
  exact (hapart.mono (word_within hj)).symm

/-- Addresses on the class lists are in the heap. -/
theorem Inv.head_lt (h : Inv storage a lists held) (hk : k < classCount) : a.smallHeads k < 2 ^ 64 := by
  rcases (h.threads k hk).head with hzero | hmem
  · rw [hzero]
    decide
  · have hcached : (⟨a.smallHeads k, classSize k⟩ : Region) ∈ cachedBlocks lists :=
      Region.mem_cached.mpr ⟨k, hk, _, hmem, rfl⟩
    have hstop := h.free.stop_lt (List.mem_append_right _ (List.mem_append_left held hcached))
    have hlimit : wordLimit = 2 ^ 64 := rfl
    unfold Region.stop at hstop
    dsimp only at hstop
    omega

/-- A held block of a class goes on its list. -/
theorem Inv.pushSmall (h : Inv storage a lists (⟨x, classSize k⟩ :: held)) (hk : k < classCount)
    (hx : classSize k ∣ x) :
    Inv storage (a.pushSmall k x) (Function.update lists k (x :: lists k)) held := by
  have hword : ∀ j < classCount, ∀ y ∈ lists j, Region.Apart ⟨x, 8⟩ ⟨y, 8⟩ := fun j hj y hy =>
    (h.word_apart hj hy).mono (word_within hk)
  have hne : x ≠ 0 := by
    have hwithin := h.free.tiling.within ⟨x, classSize k⟩ (by simp)
    have hpos := storage.pos
    have hle := hwithin.1
    dsimp only at hle
    omega
  refine ⟨h.free.perm ?_, fun j hj => ?_, fun j hj y hy => ?_⟩
  · have hpush : (cachedBlocks (Function.update lists k (x :: lists k))).Perm
        (⟨x, classSize k⟩ :: cachedBlocks lists) := Region.cached_push hk x
    exact (List.perm_middle.trans (hpush.symm.append_right held))
  · rcases eq_or_ne j k with rfl | hjk
    · have hpush := (h.threads j hj).push (h.head_lt hj) hne (hword j hj)
      simpa [LinkedListAllocator.pushSmall] using hpush
    · simp only [LinkedListAllocator.pushSmall, Function.update_of_ne hjk]
      refine (h.threads j hj).congr fun y hy i hi => Memory.writeWord_of_not_has ?_
      exact (hword j hj y hy).symm.not_has ⟨Nat.le_add_right _ _, Nat.add_lt_add_left hi _⟩
  · rcases eq_or_ne j k with rfl | hjk
    · rw [Function.update_self] at hy
      rcases List.mem_cons.mp hy with rfl | hy
      · exact hx
      · exact h.multiple j hj y hy
    · rw [Function.update_of_ne hjk] at hy
      exact h.multiple j hj y hy

/-- The first block of a class's list is handed out. -/
theorem Inv.popSmall (h : Inv storage a lists held) (hk : k < classCount) (hne : a.smallHeads k ≠ 0) :
    classSize k ∣ a.smallHeads k ∧ ∃ lists',
      Inv storage { a with
        smallHeads := Function.update a.smallHeads k (a.memory.readWord (a.smallHeads k)) }
        lists' (⟨a.smallHeads k, classSize k⟩ :: held) := by
  obtain ⟨l, hl, hthreads⟩ := (h.threads k hk).pop hne
  have hmem : a.smallHeads k ∈ lists k := by
    rw [hl]
    exact List.mem_cons_self
  refine ⟨h.multiple k hk _ hmem, Function.update lists k l, h.free.perm ?_, fun j hj => ?_,
    fun j hj y hy => ?_⟩
  · have hpop : (cachedBlocks lists).Perm
        (⟨a.smallHeads k, classSize k⟩ :: cachedBlocks (Function.update lists k l)) :=
      Region.cached_pop hk hl
    exact (hpop.append_right held).trans List.perm_middle.symm
  · rcases eq_or_ne j k with rfl | hjk
    · simpa using hthreads
    · simpa [hjk] using h.threads j hj
  · rcases eq_or_ne j k with rfl | hjk
    · rw [Function.update_self] at hy
      exact h.multiple j hj y (hl ▸ List.mem_cons_of_mem _ hy)
    · rw [Function.update_of_ne hjk] at hy
      exact h.multiple j hj y hy

/-- The blocks of a run go on their class's list one by one. -/
theorem Inv.threadBlocks (n : ℕ) (hk : k < classCount) (hx : classSize k ∣ x)
    (h : Inv storage a lists (Region.blocks x (classSize k) n ++ held)) :
    ∃ lists', Inv storage (a.threadBlocks k x n) lists' held := by
  induction n generalizing a lists x with
  | zero => exact ⟨lists, h⟩
  | succ n ih =>
    have hpush := Inv.pushSmall h hk hx
    exact ih (Nat.dvd_add hx (Nat.dvd_refl _)) hpush

/-- A run is carved for a power of two of blocks. -/
theorem findRun_some {block log blocks s : ℕ} {region : Region} {rest : List Region}
    (h : LinkedListAllocator.findRun block free log = some (blocks, region, s, rest)) :
    0 < blocks ∧ LinkedListAllocator.findRegion (block * blocks) block free = some (region, s, rest) := by
  induction log with
  | zero =>
    obtain ⟨found, hfound, heq⟩ := Option.map_eq_some_iff.mp h
    cases heq
    rw [Nat.mul_one]
    exact ⟨Nat.one_pos, hfound⟩
  | succ log ih =>
    rw [LinkedListAllocator.findRun] at h
    cases hfind : LinkedListAllocator.findRegion (block * 2 ^ (log + 1)) block free with
    | some found =>
      rw [hfind] at h
      cases h
      exact ⟨Nat.two_pow_pos _, hfind⟩
    | none =>
      rw [hfind] at h
      exact ih h

/-- A refill hands out the first block of a run and puts the others on the list. -/
theorem Inv.refillSmall (h : Inv storage a lists held) (hk : k < classCount) :
    (a.refillSmall k = (none, a)) ∨
    ∃ s a' lists', a.refillSmall k = (some s, a') ∧ s ≠ 0 ∧ classSize k ∣ s ∧
      Inv storage a' lists' (⟨s, classSize k⟩ :: held) := by
  unfold LinkedListAllocator.refillSmall
  cases hrun : LinkedListAllocator.findRun (classSize k) a.free smallRefillLog with
  | none => exact Or.inl rfl
  | some found =>
    right
    obtain ⟨blocks, region, s, rest⟩ := found
    obtain ⟨hblocks, hfind⟩ := findRun_some hrun
    have hnode := nodeAlign_dvd_classSize hk
    have hsize : 0 < classSize k := lt_of_lt_of_le (by decide) (classSize_ge hk)
    obtain ⟨hadd, hs, hne, free', hrest, hok⟩ := h.free.carve hfind hnode (hnode.mul_right blocks)
      (Nat.mul_pos hsize hblocks)
    obtain ⟨n, rfl⟩ := Nat.exists_eq_succ_of_ne_zero (Nat.ne_of_gt hblocks)
    -- the run as single blocks
    have hcut : FreeOk storage free' (cachedBlocks lists ++
        (Region.blocks (s + classSize k) (classSize k) n ++ ⟨s, classSize k⟩ :: held)) := by
      have htiling := (hok.tiling.perm List.perm_middle).cut hsize hblocks
      refine ⟨htiling.perm ?_, hok.gapped, hok.aligned⟩
      rw [Region.blocks, List.cons_append]
      refine (List.Perm.trans ?_ (List.Perm.append_left free' (List.Perm.append_left _
        List.perm_middle.symm)))
      rw [← List.append_assoc free', ← List.append_assoc free']
      refine List.Perm.trans (List.Perm.cons _ ?_) List.perm_middle.symm
      exact List.perm_append_comm_assoc _ _ _
    have hinv : Inv storage { a with free := free' } lists
        (Region.blocks (s + classSize k) (classSize k) n ++ ⟨s, classSize k⟩ :: held) :=
      ⟨hcut, h.threads, h.multiple⟩
    obtain ⟨lists', hthread⟩ := hinv.threadBlocks n hk (Nat.dvd_add hs (Nat.dvd_refl _))
    refine ⟨s, _, lists', ?_, hne, hs, hthread⟩
    dsimp only
    rw [hadd]
    dsimp only
    rw [hrest]
    rfl

/-! ## Layouts -/

theorem smallClass_some {layout : Layout} (h : LinkedListAllocator.smallClass layout = some k) :
    k < classCount ∧ layout.size ≤ classSize k ∧ layout.align ∣ classSize k := by
  obtain ⟨hk, hge, -⟩ := List.findIdx?_eq_some_iff_getElem.mp h
  have hk' : k < classCount := hk
  have hclass : smallClasses[k] = classSize k := List.getElem_eq_getD 0
  have hmax : max (max layout.size layout.align) 16 ≤ classSize k :=
    le_of_le_of_eq (of_decide_eq_true hge) hclass
  refine ⟨hk', by omega, ?_⟩
  rw [classSize_eq hk'] at hmax ⊢
  exact align_dvd (by omega)

/-- What `size_align` asks of the free list fits the layout and keeps nodes aligned. -/
theorem sizeAlign_some {layout : Layout} {size align : ℕ}
    (h : LinkedListAllocator.sizeAlign layout = some (size, align)) :
    2 ^ nodeLog ∣ align ∧ layout.align ∣ align ∧ 2 ^ nodeLog ∣ size ∧ nodeSize ≤ size ∧
      layout.size ≤ size := by
  unfold LinkedListAllocator.sizeAlign at h
  obtain ⟨wide, hwide, h⟩ := Option.bind_eq_some_iff.mp h
  obtain ⟨hsize, hlog⟩ := fromSizeLog_some hwide
  have hnode : 2 ^ nodeLog ∣ wide.align := by
    rw [Layout.align, hlog]
    exact Nat.pow_dvd_pow 2 (Nat.le_max_right _ _)
  have halign : layout.align ∣ wide.align := by
    rw [Layout.align, Layout.align, hlog]
    exact Nat.pow_dvd_pow 2 (Nat.le_max_left _ _)
  have hpad : 2 ^ nodeLog ∣ wide.padToAlign := Nat.dvd_trans hnode dvd_roundUp
  have hle : layout.size ≤ wide.padToAlign := by
    rw [← hsize]
    exact le_roundUp align_pos
  split_ifs at h with hlarge
  · -- whole pages
    obtain ⟨sum, hsum, h⟩ := Option.bind_eq_some_iff.mp h
    obtain ⟨rfl, -⟩ := checkedAdd_eq_some hsum
    cases h
    have hmax : max wide.align 4096 = 2 ^ max wide.log 12 := by
      rcases Nat.le_total wide.log 12 with hless | hmore
      · rw [Nat.max_eq_right hless]
        exact Nat.max_eq_right (Nat.pow_le_pow_right Nat.two_pos hless)
      · rw [Nat.max_eq_left hmore]
        exact Nat.max_eq_left (Nat.pow_le_pow_right Nat.two_pos hmore)
    have hwider : wide.align ∣ 2 ^ max wide.log 12 := Nat.pow_dvd_pow 2 (Nat.le_max_left _ _)
    have hpages : nodeSize ≤ 4096 := by decide
    rw [hmax]
    refine ⟨Nat.dvd_trans hnode hwider, Nat.dvd_trans halign hwider,
      Nat.dvd_trans (by decide) (Nat.dvd_mul_left 4096 _), by omega, by omega⟩
  · cases h
    refine ⟨hnode, halign, ?_, Nat.le_max_right _ _, Nat.le_trans hle (Nat.le_max_left _ _)⟩
    rcases Nat.le_total wide.padToAlign nodeSize with hmax | hmax
    · rw [Nat.max_eq_right hmax]
      decide
    · rwa [Nat.max_eq_left hmax]

/-! ## Operations -/

/-- An allocation's address suits its layout. -/
structure Placed (b : ℕ × Layout) : Prop where
  aligned : b.2.align ∣ b.1
  fits : b.2.size ≤ blockSize b.2
  node : 2 ^ nodeLog ∣ b.1
  asked : ∃ size align, LinkedListAllocator.sizeAlign b.2 = some (size, align)
  ofClass : ∀ k, LinkedListAllocator.smallClass b.2 = some k → classSize k ∣ b.1

/-- A multiple of the class size suits every layout of the class. -/
theorem Placed.of_class {address size align : ℕ} {layout : Layout}
    (hasked : LinkedListAllocator.sizeAlign layout = some (size, align))
    (hclass : LinkedListAllocator.smallClass layout = some k) (hdvd : classSize k ∣ address) :
    Placed (address, layout) := by
  obtain ⟨hk, hsize, halign⟩ := smallClass_some hclass
  refine ⟨Nat.dvd_trans halign hdvd, ?_, Nat.dvd_trans (nodeAlign_dvd_classSize hk) hdvd,
    ⟨size, align, hasked⟩, fun j hj => ?_⟩
  · unfold blockSize
    rwa [hclass]
  · cases hclass.symm.trans hj
    exact hdvd

theorem blockSize_of_class {layout : Layout} (h : LinkedListAllocator.smallClass layout = some k) :
    blockSize layout = classSize k := by
  unfold blockSize
  rw [h]

theorem blockSize_of_none {layout : Layout} {size align : ℕ}
    (h : LinkedListAllocator.smallClass layout = none)
    (hasked : LinkedListAllocator.sizeAlign layout = some (size, align)) : blockSize layout = size := by
  unfold blockSize
  rw [h, hasked]
  rfl

/-- `alloc` fails, or hands out a block that suits the layout and is from then on held. -/
theorem Inv.alloc (h : Inv storage a lists held) (layout : Layout) :
    ∃ address a' lists', a.alloc layout = (address, a') ∧
      (address = 0 ∧ Inv storage a' lists' held ∨
        Placed (address, layout) ∧ Inv storage a' lists' (block (address, layout) :: held)) := by
  unfold LinkedListAllocator.alloc block
  dsimp only
  cases hasked : LinkedListAllocator.sizeAlign layout with
  | none => exact ⟨0, a, lists, rfl, Or.inl ⟨rfl, h⟩⟩
  | some asked =>
    obtain ⟨size, align⟩ := asked
    dsimp only
    cases hclass : LinkedListAllocator.smallClass layout with
    | some k =>
      obtain ⟨hk, -, -⟩ := smallClass_some hclass
      dsimp only
      rw [blockSize_of_class hclass]
      by_cases hhead : a.smallHeads k ≠ 0
      · obtain ⟨hdvd, lists', hinv⟩ := h.popSmall hk hhead
        exact ⟨_, _, lists', if_pos hhead, Or.inr ⟨.of_class hasked hclass hdvd, hinv⟩⟩
      · rw [if_neg hhead]
        rcases h.refillSmall hk with heq | ⟨s, a', lists', heq, -, hdvd, hinv⟩
        · exact ⟨0, a, lists, by rw [heq]; rfl, Or.inl ⟨rfl, h⟩⟩
        · exact ⟨s, a', lists', by rw [heq]; rfl, Or.inr ⟨.of_class hasked hclass hdvd, hinv⟩⟩
    | none =>
      dsimp only
      rw [blockSize_of_none hclass hasked]
      obtain ⟨hnode, halign, hdvd, hge, hle⟩ := sizeAlign_some hasked
      cases hfind : LinkedListAllocator.findRegion size align a.free with
      | none => exact ⟨0, a, lists, rfl, Or.inl ⟨rfl, h⟩⟩
      | some found =>
        obtain ⟨region, s, rest⟩ := found
        have hpos : 0 < size := lt_of_lt_of_le (by decide) hge
        obtain ⟨hadd, hs, -, free', hrest, hok⟩ := h.free.carve hfind hnode hdvd hpos
        refine ⟨s, { a with free := free' }, lists, ?_, Or.inr ⟨?_, ?_⟩⟩
        · dsimp only
          rw [hadd]
          dsimp only
          rw [hrest]
        · refine ⟨Nat.dvd_trans halign hs, ?_, Nat.dvd_trans hnode hs, ⟨size, align, hasked⟩, ?_⟩
          · rw [blockSize_of_none hclass hasked]
            exact hle
          · intro k hk
            cases hclass.symm.trans hk
        · exact ⟨hok.perm List.perm_middle.symm, h.threads, h.multiple⟩

/-- `dealloc` takes the block back under the size it was handed out with. -/
theorem Inv.dealloc {b : ℕ × Layout} (h : Inv storage a lists (block b :: held)) (hplaced : Placed b) :
    ∃ lists', Inv storage (a.dealloc b.1 b.2) lists' held := by
  obtain ⟨address, layout⟩ := b
  obtain ⟨size, align, hasked⟩ := hplaced.asked
  unfold LinkedListAllocator.dealloc
  dsimp only at hasked ⊢
  have hmem : block (address, layout) ∈
      a.free ++ (cachedBlocks lists ++ block (address, layout) :: held) := by simp
  -- the page heap is elsewhere
  have houtside : ¬ (pageHeapBase ≤ address ∧ address < pageHeapBase + pageHeapSize) := by
    have hwithin := (h.free.tiling.within _ hmem).2
    have hpos := h.free.tiling.pos _ hmem
    have hbelow := storage.below
    unfold Region.stop block at hwithin
    unfold block at hpos
    dsimp only at hwithin hpos
    omega
  rw [if_neg houtside, hasked]
  dsimp only
  cases hclass : LinkedListAllocator.smallClass layout with
  | some k =>
    obtain ⟨hk, -, -⟩ := smallClass_some hclass
    unfold block at h
    rw [blockSize_of_class hclass] at h
    exact ⟨_, h.pushSmall hk (hplaced.ofClass k hclass)⟩
  | none =>
    unfold block at h
    rw [blockSize_of_none hclass hasked] at h
    obtain ⟨-, -, -, hge, -⟩ := sizeAlign_some hasked
    obtain ⟨free', hadd, hok⟩ := addFreeRegion_spec (h.free.perm List.perm_middle) hplaced.node hge
    refine ⟨lists, ?_⟩
    dsimp only
    rw [hadd]
    exact ⟨hok, h.threads, h.multiple⟩

/-- Writing to held blocks leaves the links of the classes alone. -/
theorem Inv.write (h : Inv storage a lists held) {memory : Memory}
    (houtside : ∀ x, (∀ r ∈ held, ¬ r.Has x) → memory x = a.memory x) :
    Inv storage { a with memory } lists held := by
  refine ⟨h.free, fun k hk => (h.threads k hk).congr fun y hy i hi => houtside _ fun r hr => ?_, h.multiple⟩
  have htiling := h.free.tiling
  rw [← List.append_assoc] at htiling
  have hcached : (⟨y, classSize k⟩ : Region) ∈ cachedBlocks lists :=
    Region.mem_cached.mpr ⟨k, hk, y, hy, rfl⟩
  have hapart := htiling.apart_append (List.mem_append_right a.free hcached) hr
  have hge := classSize_ge hk
  refine hapart.not_has ⟨Nat.le_add_right _ _, Nat.add_lt_add_left ?_ _⟩
  dsimp only
  omega

/-! ## Whole runs -/

/-- The lists of the allocator and the live blocks tile the heap, and every live block is placed. -/
def World.Inv (storage : Storage) (w : World) : Prop :=
  (∃ lists, StaticHeap.Inv storage w.allocator lists (w.live.map block)) ∧ ∀ b ∈ w.live, Placed b

variable {w w' : World}

theorem World.Inv.initial (h : World.Initial storage w) : w.Inv storage := by
  obtain ⟨⟨memory, hinit⟩, -, hlive⟩ := h
  have hone : FreeOk storage [] [⟨storage.base, heapSize⟩] :=
    ⟨Tiling.single (by decide), List.Pairwise.nil, (fun _ h => absurd h (by simp))⟩
  have hnode : 2 ^ nodeLog ∣ storage.base := Nat.dvd_trans (by decide) storage.aligned
  obtain ⟨free, hinsert, hok⟩ := hone.insert hnode (by decide)
  rw [LinkedListAllocator.init, hinsert] at hinit
  refine ⟨⟨fun _ => [], ?_⟩, ?_⟩
  · rw [← Option.some.inj hinit, hlive]
    exact ⟨hok, fun k hk => rfl, fun k hk x hx => absurd hx (by simp)⟩
  · rw [hlive]
    exact fun b hb => absurd hb (by simp)

theorem World.Inv.step {op : Op} (h : w.Inv storage) (hstep : w.Step op w') : w'.Inv storage := by
  obtain ⟨⟨lists, hinv⟩, hplaced⟩ := h
  cases hstep with
  | page hsize hready => exact ⟨⟨lists, hinv⟩, hplaced⟩
  | @alloc layout address a' hroute halloc haddress =>
    obtain ⟨address', a'', lists', heq, hcases⟩ := hinv.alloc layout
    rw [halloc] at heq
    cases heq
    obtain ⟨hplaced', hinv'⟩ := hcases.resolve_left fun hzero => haddress hzero.1
    refine ⟨⟨lists', hinv'⟩, fun b hb => ?_⟩
    rcases List.mem_cons.mp hb with rfl | hb
    · exact hplaced'
    · exact hplaced b hb
  | @fail layout a' hroute halloc =>
    obtain ⟨address', a'', lists', heq, hcases⟩ := hinv.alloc layout
    rw [halloc] at heq
    cases heq
    rcases hcases with ⟨-, hinv'⟩ | ⟨-, hinv'⟩
    · exact ⟨⟨lists', hinv'⟩, hplaced⟩
    · -- no block of the heap is at null
      have hwithin := hinv'.free.tiling.within (block (0, layout)) (by simp)
      exact absurd hwithin.1 (Nat.not_le.mpr storage.pos)
  | @dealloc address layout hlive =>
    have hperm : w.live.Perm ((address, layout) :: w.live.erase (address, layout)) :=
      List.perm_cons_erase hlive
    have hheld : StaticHeap.Inv storage w.allocator lists
        (block (address, layout) :: (w.live.erase (address, layout)).map block) :=
      ⟨hinv.free.perm (List.Perm.append_left _ (hperm.map block)), hinv.threads, hinv.multiple⟩
    obtain ⟨lists', hinv'⟩ := hheld.dealloc (hplaced _ hlive)
    exact ⟨⟨lists', hinv'⟩, fun b hb => hplaced b (List.mem_of_mem_erase hb)⟩
  | enablePageHeap => exact ⟨⟨lists, hinv⟩, hplaced⟩
  | write houtside =>
    refine ⟨⟨lists, hinv.write fun x hx => houtside x fun b hb => ?_⟩, hplaced⟩
    exact hx (block b) (List.mem_map_of_mem hb)

/-- **The heap stays tiled.** In every run of allocations, deallocations of live blocks and writes to
live blocks, the live blocks, the blocks of the classes and the nodes of the free list are apart from
each other, lie in the heap and add up to its size; live blocks are aligned and large enough; and the
free list is sorted with a gap between any two nodes. -/
theorem reachable_tiled (h : World.Reachable storage w) :
    ∃ lists : ℕ → List ℕ,
      (∀ k < classCount, w.allocator.memory.Threads (w.allocator.smallHeads k) (lists k)) ∧
      (w.allocator.free ++ (cachedBlocks lists ++ w.live.map block)).Pairwise Region.Apart ∧
      (∀ r ∈ w.allocator.free ++ (cachedBlocks lists ++ w.live.map block),
        r.Within storage.base (storage.base + heapSize)) ∧
      ((w.allocator.free ++ (cachedBlocks lists ++ w.live.map block)).map Region.size).sum = heapSize ∧
      (∀ b ∈ w.live, b.2.align ∣ b.1 ∧ b.2.size ≤ (block b).size) ∧
      w.allocator.free.Pairwise fun a b => a.stop < b.start := by
  obtain ⟨⟨lists, hinv⟩, hplaced⟩ := Run.Reachable.invariant (P := World.Inv storage)
    (fun _ hinit => World.Inv.initial hinit) (fun _ _ _ hinv hstep => hinv.step hstep) h
  refine ⟨lists, hinv.threads, hinv.free.tiling.apart, hinv.free.tiling.within, ?_,
    fun b hb => ⟨(hplaced b hb).aligned, (hplaced b hb).fits⟩, hinv.free.gapped⟩
  rw [hinv.free.tiling.total, Nat.add_sub_cancel_left]

/-- A small block, a large one and a block of another class; the large one is given back, to a free list
that has the rest in front of it. -/
theorem reachable_tiled_givenBack :
    ∃ (storage : Storage) (w : World), World.Reachable storage w ∧
      w.live.map block = [⟨20480, 128⟩, ⟨4096, 16⟩] ∧
      w.allocator.free = [⟨4608, 15872⟩, ⟨24576, 10465280⟩] ∧ ∃ lists,
      (w.allocator.free ++ (cachedBlocks lists ++ w.live.map block)).Pairwise Region.Apart ∧
      ((w.allocator.free ++ (cachedBlocks lists ++ w.live.map block)).map Region.size).sum = heapSize := by
  let storage : Storage := ⟨4096, by decide, by decide, by decide⟩
  let small : Layout := ⟨8, 3, by decide, by decide⟩
  let large : Layout := ⟨10000, 3, by decide, by decide⟩
  let other : Layout := ⟨100, 3, by decide, by decide⟩
  let start : LinkedListAllocator := ⟨[⟨4096, heapSize⟩], fun _ => 0, fun _ => 0⟩
  let a₁ := (start.alloc small).2
  let a₂ := (a₁.alloc large).2
  let a₃ := (a₂.alloc other).2
  have hinsert : LinkedListAllocator.insertRegion [] 4096 heapSize = some [⟨4096, heapSize⟩] := by
    decide +kernel
  have hstart : World.Reachable storage ⟨start, false, []⟩ := by
    refine .start ⟨⟨fun _ => 0, ?_⟩, rfl, rfl⟩
    rw [LinkedListAllocator.init, hinsert]
    rfl
  have h₁ : World.Reachable storage ⟨a₁, false, [(4096, small)]⟩ :=
    .next hstart (.alloc (by decide)
      (Prod.ext (show (start.alloc small).1 = 4096 by decide +kernel) rfl) (by decide))
  have h₂ : World.Reachable storage ⟨a₂, false, [(8192, large), (4096, small)]⟩ :=
    .next h₁ (.alloc (by simp)
      (Prod.ext (show (a₁.alloc large).1 = 8192 by decide +kernel) rfl) (by decide))
  have h₃ : World.Reachable storage ⟨a₃, false, [(20480, other), (8192, large), (4096, small)]⟩ :=
    .next h₂ (.alloc (by decide)
      (Prod.ext (show (a₂.alloc other).1 = 20480 by decide +kernel) rfl) (by decide))
  have hreach : World.Reachable storage
      ⟨a₃.dealloc 8192 large, false, [(20480, other), (4096, small)]⟩ :=
    .next h₃ (.dealloc (by decide))
  obtain ⟨lists, -, hapart, -, htotal, -⟩ := reachable_tiled hreach
  exact ⟨storage, _, hreach, by decide +kernel, by decide +kernel, lists, hapart, htotal⟩

end SaeOS.StaticHeap
