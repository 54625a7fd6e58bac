import SaeOS.Mm.PageTreeMap

/-!
# Unmapping a page

What `unmap_page_in_root` does to a page-table tree. After the entry of the page is cleared, tables
are given back from below as long as they are empty; `Pruned` says what that leaves, and holds of
each of these steps and of all of them together.
-/

namespace SaeOS.PageTree

open Frame Paging Machine

variable {s s' s'' s₀ s₁ : Machine} {root table f g d k pdpt pd pt : ℕ} {entry : Entry}
  {p va : UserAddress}

/-- Some tables on the way to `p` were given back, all of them empty, and nothing else happened. -/
structure Pruned (s s' : Machine) (root : ℕ) (p : UserAddress) : Prop where
  tree : Tree s' root
  translation : ∀ va : UserAddress, s'.translation root va = s.translation root va
  sub : ∀ {va : UserAddress} {d f : ℕ}, d ≤ 3 → s'.route root va d = some f →
    s.route root va d = some f
  tables : ∀ {va : UserAddress} {d f : ℕ}, d ≤ 3 → s.route root va d = some f →
    s'.route root va d = some f ∨ s'.pool.refcount f = 0 ∧ s'.tableEmpty f = true
  frames : ∀ f, s'.pool.refcount f = s.pool.refcount f ∨
    s'.pool.refcount f = 0 ∧ ∃ d, 1 ≤ d ∧ d ≤ 3 ∧ s.route root p d = some f
  untouched : ∀ f, (∀ (va : UserAddress) (d : ℕ), d ≤ 3 → s.route root va d ≠ some f) →
    s'.mem f = s.mem f
  tracked : s'.pool.tracked = s.pool.tracked
  panicked : s'.pool.panicked = s.pool.panicked

namespace Pruned

theorem refl (tree : Tree s root) (p : UserAddress) : Pruned s s root p :=
  ⟨tree, fun _ => rfl, fun _ h => h, fun _ h => Or.inl h, fun _ => Or.inl rfl, fun _ _ => rfl, rfl,
    rfl⟩

theorem trans (h : Pruned s s' root p) (h' : Pruned s' s'' root p) : Pruned s s'' root p where
  tree := h'.tree
  translation va := (h'.translation va).trans (h.translation va)
  sub hd hva := h.sub hd (h'.sub hd hva)
  tables {va d f} hd hva := by
    rcases h.tables hd hva with hva | ⟨hfree, hempty⟩
    · exact h'.tables hd hva
    · -- a frame given back is no table any more, so the rest does not concern it
      refine Or.inr ⟨?_, ?_⟩
      · rcases h'.frames f with heq | ⟨hzero, -⟩
        · rw [heq, hfree]
        · exact hzero
      · rwa [tableEmpty_congr (h'.untouched f fun va d hd hroute =>
          h.tree.refcount_ne_zero hd hroute hfree)]
  frames f := by
    rcases h'.frames f with heq | ⟨hzero, d, hd1, hd, hroute⟩
    · rw [heq]
      exact h.frames f
    · exact Or.inr ⟨hzero, d, hd1, hd, h.sub hd hroute⟩
  untouched f hf := by
    rw [h'.untouched f fun va d hd hva => hf va d hd (h.sub hd hva), h.untouched f hf]
  tracked := h'.tracked.trans h.tracked
  panicked := h'.panicked.trans h.panicked

/-- One empty table. -/
theorem drop (tree : Tree s root) (hk : k < 3) (hp : s.route root p k = some table)
    (hg : s.route root p (k + 1) = some g) (hempty : s.tableEmpty g = true) :
    Pruned s (s.dropTable table (index p k)) root p := by
  obtain ⟨hrefcount, htracked, hpanicked⟩ := drop_pool tree hk hp hg
  have hmem : ∀ f, f ≠ table → (s.dropTable table (index p k)).mem f = s.mem f := fun f hf => by
    rw [drop_mem, write_mem_of_ne _ _ _ hf]
  have htable : g ≠ table := by
    rintro rfl
    have := (tree.apart (by omega) (by omega) hp hg).1
    omega
  refine ⟨drop_tree tree hk hp hg, fun va => drop_translation tree hk hp hg hempty,
    fun {va d f} hd hva => ?_, fun {va d f} hd hva => ?_, fun f => ?_, fun f hf => ?_, htracked,
    hpanicked⟩
  · rw [drop_route tree hk hp hd] at hva
    split_ifs at hva
    exact hva
  · rw [drop_route tree hk hp hd]
    split_ifs with hon
    · -- below an empty table there is no other
      have hnext : s.route root va (k + 1) = some g := by
        rw [route_of_agree s root hon.1, hg]
      by_cases hd : d = k + 1
      · subst hd
        rw [hnext] at hva
        cases hva
        refine Or.inr ⟨by rw [hrefcount, Function.update_self], ?_⟩
        exact (tableEmpty_congr (hmem g htable)).trans hempty
      · obtain ⟨f', hf'⟩ := route_of_le hva (show k + 2 ≤ d by omega)
        rw [not_tableEmpty_of_route hnext hf'] at hempty
        cases hempty
    · exact Or.inl hva
  · rw [hrefcount]
    by_cases hfg : f = g
    · subst hfg
      exact Or.inr ⟨Function.update_self _ _ _, k + 1, by omega, by omega, hg⟩
    · exact Or.inl (Function.update_of_ne hfg _ _)
  · refine hmem f fun heq => hf p k hk.le ?_
    rw [heq]
    exact hp

end Pruned

/-- The table below the one that is left may have become empty. -/
theorem Hollow.drop (h : Hollow s₀ s root p (k + 1)) (tree : Tree s root) (hk : k < 3)
    (hp : s.route root p k = some table) :
    Hollow s₀ (s.dropTable table (index p k)) root p k := by
  intro va d f hd1 hd hva hempty
  rw [drop_route tree hk hp hd] at hva
  split_ifs at hva with hon
  by_cases htable : f = table
  · subst htable
    obtain ⟨rfl, hagree⟩ := tree.apart hd hk.le hva hp
    exact Or.inr ⟨rfl, hagree⟩
  · rw [tableEmpty_congr (s := s)] at hempty
    · rcases h va d f hd1 hd hva hempty with hold | ⟨rfl, hagree⟩
      · exact Or.inl hold
      · exact absurd ⟨hagree, k.lt_succ_self⟩ hon
    · rw [drop_mem, write_mem_of_ne _ _ _ htable]

/-- The table is not empty after all. -/
theorem Hollow.stop (h : Hollow s₀ s root p k) (hp : s.route root p k = some table)
    (hfull : s.tableEmpty table = false) : Hollow s₀ s root p 0 := by
  intro va d f hd1 hd hva hempty
  refine Or.inl ((h va d f hd1 hd hva hempty).resolve_right fun ⟨hdk, hagree⟩ => ?_)
  subst hdk
  rw [route_of_agree s root hagree, hp] at hva
  cases hva
  rw [hfull] at hempty
  cases hempty

/-- Writing the entry of a page can only empty its page table. -/
theorem Hollow.leaf (h : Hollow s₀ s root p 3) (tree : Tree s root)
    (hp : s.route root p 3 = some table) (entry : Entry) :
    Hollow s₀ (s.write table (index p 3) entry) root p 3 := by
  intro va d f hd1 hd hva hempty
  rw [leaf_route tree hp hd] at hva
  by_cases htable : f = table
  · subst htable
    obtain ⟨rfl, hagree⟩ := tree.apart hd le_rfl hva hp
    exact Or.inr ⟨rfl, hagree⟩
  · rw [tableEmpty_congr (write_mem_of_ne _ _ _ htable)] at hempty
    exact h va d f hd1 hd hva hempty

/-! ## Giving tables back -/

/-- One level on the way up: the table `g` below is empty and goes. -/
theorem release_step (h : Pruned s₀ s root p) (hhollow : Hollow s₁ s root p (k + 1)) (hk : k < 3)
    (hp : s.route root p k = some table) (hg : s.route root p (k + 1) = some g)
    (hempty : s.tableEmpty g = true) (hs' : s' = (s.free g).write table (index p k) {}) :
    Pruned s₀ s' root p ∧ Hollow s₁ s' root p k ∧
      ∀ j ≤ k, s'.route root p j = s.route root p j := by
  have hdrop : s' = s.dropTable table (index p k) := by
    rw [hs', dropTable, frame_of_route hp hg]
    rfl
  subst hdrop
  refine ⟨h.trans (Pruned.drop h.tree hk hp hg hempty), hhollow.drop h.tree hk hp, fun j hj => ?_⟩
  rw [drop_route h.tree hk hp (by omega), if_neg (by omega)]

/-- The levels are left from below, and the first table that is not empty stays. -/
theorem releaseTables_spec (tree : Tree s root) (hpdpt : s.route root p 1 = some pdpt)
    (hpd : s.route root p 2 = some pd) (hpt : s.route root p 3 = some pt)
    (hhollow : Hollow s₀ s root p 3) :
    Pruned s (s.releaseTables root p pdpt pd pt) root p ∧
      Hollow s₀ (s.releaseTables root p pdpt pd pt) root p 0 := by
  have hstart := Pruned.refl tree p
  unfold releaseTables
  by_cases hemptyPt : s.tableEmpty pt = true
  rotate_left
  · rw [if_neg hemptyPt]
    exact ⟨hstart, hhollow.stop hpt (Bool.eq_false_iff.mpr hemptyPt)⟩
  rw [if_pos hemptyPt]
  generalize hs₁ : (s.free pt).write pd (index p 2) {} = s₁
  obtain ⟨hpruned₁, hhollow₁, hsame₁⟩ :=
    release_step hstart hhollow (by omega) hpd hpt hemptyPt hs₁.symm
  rw [← hsame₁ 1 (by omega)] at hpdpt
  rw [← hsame₁ 2 le_rfl] at hpd
  by_cases hemptyPd : s₁.tableEmpty pd = true
  rotate_left
  · simp only [if_neg hemptyPd]
    exact ⟨hpruned₁, hhollow₁.stop hpd (Bool.eq_false_iff.mpr hemptyPd)⟩
  simp only [if_pos hemptyPd]
  generalize hs₂ : (s₁.free pd).write pdpt (index p 1) {} = s₂
  obtain ⟨hpruned₂, hhollow₂, hsame₂⟩ :=
    release_step hpruned₁ hhollow₁ (by omega) hpdpt hpd hemptyPd hs₂.symm
  rw [← hsame₂ 1 le_rfl] at hpdpt
  by_cases hemptyPdpt : s₂.tableEmpty pdpt = true
  rotate_left
  · rw [if_neg hemptyPdpt]
    exact ⟨hpruned₂, hhollow₂.stop hpdpt (Bool.eq_false_iff.mpr hemptyPdpt)⟩
  rw [if_pos hemptyPdpt]
  obtain ⟨hpruned₃, hhollow₃, -⟩ :=
    release_step hpruned₂ hhollow₂ (by omega) rfl hpdpt hemptyPdpt rfl
  exact ⟨hpruned₃, hhollow₃⟩

/-! ## The whole of it -/

theorem tableFromEntry_ok : tableFromEntry entry = .ok f ↔ entry.table? = some f := by
  rw [Entry.table?_eq_some_iff, tableFromEntry]
  split_ifs with hpresent hhuge
  · simp [hpresent]
  · simp [hhuge]
  · simp [Bool.eq_false_iff.mpr hhuge, Bool.not_eq_false _ ▸ hpresent]

theorem tableFromEntry_bind_ok {α : Type} {next : ℕ → Except EditError α} {value : α} :
    (tableFromEntry entry >>= next) = .ok value ↔
      ∃ f, entry.table? = some f ∧ next f = .ok value := by
  cases htable : tableFromEntry entry with
  | error error =>
    refine iff_of_false (fun h => by cases h) ?_
    rintro ⟨f, hf, -⟩
    rw [tableFromEntry_ok.mpr hf] at htable
    cases htable
  | ok f =>
    have hf := tableFromEntry_ok.mp htable
    refine ⟨fun h => ⟨f, hf, h⟩, ?_⟩
    rintro ⟨f', hf', h⟩
    rw [hf] at hf'
    cases hf'
    exact h

/-- The tables that unmapping looks through are those on the way. -/
theorem tablesTo_ok {va : ℕ} : s.tablesTo root va = .ok (pdpt, pd, pt) ↔
    s.route root va 1 = some pdpt ∧ s.route root va 2 = some pd ∧
      s.route root va 3 = some pt := by
  unfold tablesTo
  simp only [tableFromEntry_bind_ok, pure, Except.pure, Except.ok.injEq, Prod.mk.injEq, route,
    Option.bind_some]
  constructor
  · rintro ⟨pdpt, h₁, pd, h₂, pt, h₃, rfl, rfl, rfl⟩
    simp [h₁, h₂, h₃]
  · rintro ⟨h₁, h₂, h₃⟩
    rw [h₁, Option.bind_some] at h₂ h₃
    rw [h₂, Option.bind_some] at h₃
    exact ⟨pdpt, h₁, pd, h₂, pt, h₃, rfl, rfl, rfl⟩

theorem validateUserMapping_ok {va : ℕ} :
    validateUserMapping va 0 .userRead = .ok () ↔ va % pageSize = 0 ∧ va < lowerHalfEnd := by
  unfold validateUserMapping
  split_ifs <;> simp_all [PageFlags.userRead]

/-- `unmap_page_in_root` changes nothing when it fails, and otherwise clears the entry of the page
and gives tables back. -/
theorem unmapPageInRoot_cases {va : ℕ} {result : Except EditError ℕ}
    (h : s.unmapPageInRoot root va = (result, s')) :
    ((∃ error, result = .error error) ∧ s' = s) ∨
      ∃ (p : UserAddress) (pdpt pd pt : ℕ), p.1 = va ∧ s.route root p 1 = some pdpt ∧
        s.route root p 2 = some pd ∧ s.route root p 3 = some pt ∧
        (s.mem pt (index p 3)).bits.present = true ∧
        result = .ok (s.mem pt (index p 3)).frame ∧
        s' = (s.write pt (index p 3) {}).releaseTables root p pdpt pd pt := by
  unfold unmapPageInRoot at h
  cases hvalid : validateUserMapping va 0 .userRead with
  | error error =>
    rw [hvalid] at h
    cases h
    exact Or.inl ⟨⟨_, rfl⟩, rfl⟩
  | ok _ =>
    rw [hvalid] at h
    cases htables : s.tablesTo root va with
    | error error =>
      rw [htables] at h
      cases h
      exact Or.inl ⟨⟨_, rfl⟩, rfl⟩
    | ok tables =>
      obtain ⟨pdpt, pd, pt⟩ := tables
      rw [htables] at h
      dsimp only at h
      split_ifs at h with hpresent
      · cases h
        exact Or.inl ⟨⟨_, rfl⟩, rfl⟩
      · cases h
        obtain ⟨hpdpt, hpd, hpt⟩ := tablesTo_ok.mp htables
        exact Or.inr ⟨⟨va, (validateUserMapping_ok.mp hvalid).2⟩, pdpt, pd, pt, rfl, hpdpt, hpd, hpt,
          by simpa using hpresent, rfl, rfl⟩

/-- The frames that are free after unmapping are those that were, and the tables that have become
empty. -/
def FreesEmptied (s s' : Machine) (root : ℕ) : Prop :=
  (∀ f, s'.pool.refcount f = 0 ↔ s.pool.refcount f = 0 ∨
    ∃ (va : UserAddress) (d : ℕ), 1 ≤ d ∧ d ≤ 3 ∧ s.route root va d = some f ∧
      s.tableEmpty f = false ∧ s'.tableEmpty f = true) ∧
  ∀ f, s'.pool.refcount f ≠ 0 → s'.pool.refcount f = s.pool.refcount f

/-- A present entry is cleared and the tables above it are given back as far as they are empty. -/
theorem unmap_spec (tree : Tree s root) (hpdpt : s.route root p 1 = some pdpt)
    (hpd : s.route root p 2 = some pd) (hpt : s.route root p 3 = some pt)
    (hpresent : (s.mem pt (index p 3)).bits.present = true)
    (hs' : s' = (s.write pt (index p 3) {}).releaseTables root p pdpt pd pt) :
    Tree s' root ∧
      (∀ va : UserAddress, s'.translation root va =
        if va.1 / pageSize = p.1 / pageSize then none else s.translation root va) ∧
      Hollow s s' root p 0 ∧ FreesEmptied s s' root := by
  have hleafRoute : ∀ (va : UserAddress) (d : ℕ), d ≤ 3 →
      (s.write pt (index p 3) {}).route root va d = s.route root va d :=
    fun va d hd => leaf_route tree hpt hd
  obtain ⟨hpruned, hhollow⟩ := releaseTables_spec (leaf_tree tree hpt fun _ => rfl)
    ((hleafRoute p 1 (by omega)).trans hpdpt) ((hleafRoute p 2 (by omega)).trans hpd)
    ((hleafRoute p 3 le_rfl).trans hpt) ((Hollow.refl s root p 3).leaf tree hpt {})
  rw [← hs'] at hpruned hhollow
  refine ⟨hpruned.tree, fun va => ?_, hhollow, fun f => ⟨fun hzero => ?_, ?_⟩, fun f hf => ?_⟩
  · rw [hpruned.translation, leaf_translation tree hpt]
    rfl
  · rcases hpruned.frames f with heq | ⟨-, d, hd1, hd, hroute⟩
    · exact Or.inl (heq.symm.trans hzero)
    · refine Or.inr ⟨p, d, hd1, hd, (hleafRoute p d hd).symm.trans hroute, ?_, ?_⟩
      · -- it was on the way to a page that was mapped
        rw [hleafRoute p d hd] at hroute
        rcases Nat.lt_or_eq_of_le hd with hlt | rfl
        · obtain ⟨g, hg⟩ := route_of_le hpt (Nat.succ_le_of_lt hlt)
          exact not_tableEmpty_of_route hroute hg
        · rw [hpt] at hroute
          cases hroute
          exact not_tableEmpty (index_lt p 3) hpresent
      · rcases hpruned.tables hd hroute with hkept | ⟨-, hempty⟩
        · exact absurd hzero (hpruned.tree.refcount_ne_zero hd hkept)
        · exact hempty
  · rintro (hzero | ⟨va, d, hd1, hd, hroute, hfull, hempty⟩)
    · rcases hpruned.frames f with heq | ⟨hzero', -⟩
      · exact heq.trans hzero
      · exact hzero'
    · rcases hpruned.tables hd ((hleafRoute va d hd).trans hroute) with hkept | ⟨hzero, -⟩
      · -- a table that is left is not empty unless it was
        rcases hhollow va d f hd1 hd hkept hempty with ⟨-, hold⟩ | ⟨rfl, -⟩
        · rw [hfull] at hold
          cases hold
        · omega
      · exact hzero
  · rcases hpruned.frames f with heq | ⟨hzero, -⟩
    · exact heq
    · exact absurd hzero hf

end SaeOS.PageTree
