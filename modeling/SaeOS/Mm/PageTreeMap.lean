import SaeOS.Mm.PageTreeSteps

/-!
# Mapping a page

What `map_page_in_root` does to a page-table tree. It looks for a table at three levels and creates
it where there is none (`Stage`); whatever stops it then, `rollback_tables` undoes the stages passed
so far, the deepest first (`rollback_three`). `mapPageInRoot_cases` has both outcomes.

`Hollow` follows the tables that became empty: at most the one a stage has just reached.
-/

namespace SaeOS.PageTree

open Frame Paging Machine

variable {s s' s'' s₀ s₁ s₂ s₃ : Machine} {root table f g d k : ℕ} {entry : Entry}
  {p va : UserAddress} {created a b c : Bool}

/-! ## Empty tables -/

/-- No table but the root is empty that was not an empty table in `s₀`, except perhaps the one at depth `k` on
the way to `p`. -/
def Hollow (s₀ s : Machine) (root : ℕ) (p : UserAddress) (k : ℕ) : Prop :=
  ∀ (va : UserAddress) (d f : ℕ), 1 ≤ d → d ≤ 3 → s.route root va d = some f →
    s.tableEmpty f = true →
      (s₀.route root va d = some f ∧ s₀.tableEmpty f = true) ∨ d = k ∧ Agree k va p

/-- No table but the root is empty. -/
def NoEmpty (s : Machine) (root : ℕ) : Prop :=
  ∀ (va : UserAddress) (d f : ℕ), 1 ≤ d → d ≤ 3 → s.route root va d = some f →
    s.tableEmpty f = false

theorem Hollow.refl (s : Machine) (root : ℕ) (p : UserAddress) (k : ℕ) : Hollow s s root p k :=
  fun _ _ _ _ _ hroute hempty => Or.inl ⟨hroute, hempty⟩

theorem not_tableEmpty {i : ℕ} (hi : i < tableSlots) (h : (s.mem f i).bits.present = true) :
    s.tableEmpty f = false := by
  rw [Bool.eq_false_iff]
  intro hempty
  rw [tableEmpty_iff.mp hempty i hi] at h
  cases h

theorem tableEmpty_congr (h : s'.mem f = s.mem f) : s'.tableEmpty f = s.tableEmpty f := by
  rw [tableEmpty, tableEmpty, h]

/-- A table is not empty if the way goes on from it. -/
theorem not_tableEmpty_of_route (hp : s.route root p k = some table)
    (hg : s.route root p (k + 1) = some g) : s.tableEmpty table = false := by
  obtain ⟨entry, hslot, htable⟩ := slot_of_route_succ hg
  rw [slot_of_route hp] at hslot
  refine not_tableEmpty (index_lt p k) ?_
  rw [Option.some.inj hslot]
  exact (Entry.table?_eq_some_iff.mp htable).1

/-- The table is already there. -/
theorem Hollow.descend (h : Hollow s₀ s root p k) (hp : s.route root p k = some table)
    (hg : s.route root p (k + 1) = some g) : Hollow s₀ s root p (k + 1) := by
  intro va d f hd1 hd hva hempty
  refine (h va d f hd1 hd hva hempty).imp_right fun ⟨hdk, hagree⟩ => ?_
  subst hdk
  rw [route_of_agree s root hagree, hp] at hva
  cases hva
  rw [not_tableEmpty_of_route hp hg] at hempty
  cases hempty

/-- The table was created. -/
theorem Hollow.link (h : Hollow s₀ s root p k) (tree : Tree s root) (hk : k < 3)
    (hp : s.route root p k = some table) (hlink : Linked s table (index p k) g s') :
    Hollow s₀ s' root p (k + 1) := by
  intro va d f hd1 hd hva hempty
  rw [hlink.route tree hk hp hd] at hva
  split_ifs at hva with hon hnext
  · exact Or.inr ⟨hnext, hon.1⟩
  by_cases htable : f = table
  · -- it now has the link
    subst htable
    have hslot := (tree.held hk.le hp).1
    rw [not_tableEmpty_of_route (p := p) (k := k) (g := g) ?_ (hlink.route_new tree hk hp)] at hempty
    · cases hempty
    · rw [hlink.route tree hk hp hk.le, if_neg (by omega), hp]
  · have hfg : f ≠ g := by
      rintro rfl
      exact tree.refcount_ne_zero hd hva hlink.refcount.1
    have hmem : s'.mem f = s.mem f := by
      obtain ⟨pool, -, rfl⟩ := hlink
      rw [write_mem_of_ne _ _ _ htable]
      exact Function.update_of_ne hfg _ _
    rw [tableEmpty_congr hmem] at hempty
    refine (h va d f hd1 hd hva hempty).imp_right fun ⟨hdk, hagree⟩ => ?_
    subst hdk
    rw [route_of_agree s root hagree, hp] at hva
    exact absurd (Option.some.inj hva).symm htable

/-! ## One table on the way -/

/-- From `s` to `s'`, the table `g` at depth `k + 1` on the way to `p` was found, or created in a
slot of `table`. -/
structure Stage (s s' : Machine) (root : ℕ) (p : UserAddress) (k table g : ℕ) (created : Bool) :
    Prop where
  tree : Tree s' root
  above : s'.route root p k = some table
  route : s'.route root p (k + 1) = some g
  translation : ∀ va : UserAddress, s'.translation root va = s.translation root va
  hollow : ∀ s₀, Hollow s₀ s root p k → Hollow s₀ s' root p (k + 1)
  undo : ∀ s'', Restored s' s'' →
    Restored s (if created then s''.dropTable table (index p k) else s'')
  old : created = false → s' = s
  new : created = true →
    (s.mem table (index p k)).bits.present = false ∧ s'.mem g = fun _ => {}
  other : ∀ va : UserAddress, ∀ d ≤ k, s'.route root va d = s.route root va d

/-- One level of `map_page_in_root`. -/
theorem ensureTable_stage (tree : Tree s root) (hk : k < 3) (hp : s.route root p k = some table)
    (hsmall : (s.mem table (index p k)).bits.huge = false) {o : Option Bool}
    (h : s.ensureTable table (index p k) = (o, s')) :
    (o = none ∧ Restored s s') ∨
      ∃ created, o = some created ∧
        Stage s s' root p k table (s'.mem table (index p k)).frame created := by
  rcases ensureTable_cases h with ⟨hpresent, rfl, rfl⟩ | ⟨habsent, rfl, g, hlink⟩ |
    ⟨-, rfl, hback⟩
  · -- the table is there
    have hroute : s'.route root p (k + 1) = some (s'.mem table (index p k)).frame := by
      rw [route_succ, slot_of_route hp, Option.bind_some]
      exact Entry.table?_eq_some_iff.mpr ⟨hpresent, hsmall, rfl⟩
    refine Or.inr ⟨false, rfl, tree, hp, hroute, fun _ => rfl,
      fun _ hhollow => hhollow.descend hp hroute, fun _ hback => hback, fun _ => rfl,
      (fun h => by cases h), fun _ _ _ => rfl⟩
  · have hroute := hlink.route_new tree hk hp
    have habove : s'.route root p k = some table := by
      rw [hlink.route tree hk hp hk.le, if_neg (by omega), hp]
    have hframe := frame_of_route habove hroute
    rw [hframe]
    refine Or.inr ⟨true, rfl, hlink.keeps_tree tree hk hp, habove, hroute,
      fun va => hlink.translation tree hk hp habsent,
      fun _ hhollow => hhollow.link tree hk hp hlink,
      fun s'' hback => hlink.undo tree hk hp habsent hback, (fun h => by cases h),
      fun _ => ⟨habsent, (hlink.new_table (hlink.ne_table tree hk hp)).1⟩, fun va d hd => ?_⟩
    rw [hlink.route tree hk hp (by omega), if_neg (by omega)]
  · exact Or.inl ⟨rfl, hback⟩

/-! ## Rolling back -/

/-- What was read off a link can be read off it again. -/
theorem Restored.frame (h : Restored s s') (tree : Tree s root) (hk : k < 3)
    (hp : s.route root p k = some table) (hg : s.route root p (k + 1) = some g) :
    (s'.mem table (index p k)).frame = g := by
  rw [h.mem table (tree.refcount_ne_zero hk.le hp)]
  exact frame_of_route hp hg

section Rollback

variable {pdpt pd pt : ℕ}

theorem rollback_one (h₀ : Stage s₀ s₁ root p 0 root pdpt a) (hback : Restored s₁ s) :
    Restored s₀ (s.rollbackTables root p a false false) :=
  h₀.undo s hback

theorem rollback_two (h₀ : Stage s₀ s₁ root p 0 root pdpt a) (h₁ : Stage s₁ s₂ root p 1 pdpt pd b)
    (hback : Restored s₂ s) : Restored s₀ (s.rollbackTables root p a b false) := by
  have hpdpt : (s.mem root (index p 0)).frame = pdpt :=
    hback.frame h₁.tree (by omega) rfl h₁.above
  have hnext := h₁.undo s hback
  rw [← hpdpt] at hnext
  exact rollback_one h₀ hnext

theorem rollback_three (h₀ : Stage s₀ s₁ root p 0 root pdpt a)
    (h₁ : Stage s₁ s₂ root p 1 pdpt pd b) (h₂ : Stage s₂ s₃ root p 2 pd pt c)
    (hback : Restored s₃ s) : Restored s₀ (s.rollbackTables root p a b c) := by
  have hway : s₃.route root p 1 = some pdpt := by
    rw [h₂.other p 1 (by omega)]
    exact h₁.above
  have hpdpt : (s.mem root (index p 0)).frame = pdpt :=
    hback.frame h₂.tree (by omega) rfl hway
  have hpd : (s.mem pdpt (index p 1)).frame = pd :=
    hback.frame h₂.tree (by omega) hway h₂.above
  have hnext := h₂.undo s hback
  rw [← hpd, ← hpdpt] at hnext
  exact rollback_two h₀ h₁ hnext

end Rollback

/-! ## The whole of it -/

/-- The tables on the way to `p` were found or created, from `s₀` to `s₃`. -/
def Chain (s₀ s₃ : Machine) (root : ℕ) (p : UserAddress) (pdpt pd pt : ℕ) : Prop :=
  ∃ s₁ s₂ a b c, Stage s₀ s₁ root p 0 root pdpt a ∧ Stage s₁ s₂ root p 1 pdpt pd b ∧
    Stage s₂ s₃ root p 2 pd pt c

/-- `map_page_in_root` either undoes all it did, or writes the entry of the page after the tables on
the way are there. -/
theorem mapPageInRoot_cases (tree : Tree s root) {physical : ℕ} {flags : Bits}
    {result : Except EditError Unit} (h : s.mapPageInRoot root p physical flags = (result, s')) :
    ((∃ error, result = .error error) ∧ Restored s s') ∨
      result = .ok () ∧ ∃ s₃ pdpt pd pt, Chain s s₃ root p pdpt pd pt ∧
        (s₃.mem pt (index p 3)).bits.present = false ∧
        s' = s₃.write pt (index p 3) ⟨physical, flags⟩ := by
  unfold mapPageInRoot at h
  rcases hfirst : s.ensureTable root (index p 0) with ⟨o, s₁⟩
  rcases ensureTable_stage tree (by omega) rfl (tree.root_small p) hfirst with
    ⟨rfl, hback⟩ | ⟨a, rfl, h₀⟩ <;> rw [hfirst] at h <;> dsimp only at h
  · cases h
    exact Or.inl ⟨⟨_, rfl⟩, hback⟩
  generalize (s₁.mem root (index p 0)).frame = pdpt at h h₀
  split_ifs at h with hhuge
  · cases h
    exact Or.inl ⟨⟨_, rfl⟩, rollback_one h₀ (Restored.refl _)⟩
  rcases hsecond : s₁.ensureTable pdpt (index p 1) with ⟨o, s₂⟩
  rcases ensureTable_stage h₀.tree (by omega) h₀.route (Bool.eq_false_iff.mpr hhuge) hsecond with
    ⟨rfl, hback⟩ | ⟨b, rfl, h₁⟩ <;> rw [hsecond] at h <;> dsimp only at h
  · cases h
    exact Or.inl ⟨⟨_, rfl⟩, rollback_one h₀ hback⟩
  generalize (s₂.mem pdpt (index p 1)).frame = pd at h h₁
  split_ifs at h with hhuge
  · cases h
    exact Or.inl ⟨⟨_, rfl⟩, rollback_two h₀ h₁ (Restored.refl _)⟩
  rcases hthird : s₂.ensureTable pd (index p 2) with ⟨o, s₃⟩
  rcases ensureTable_stage h₁.tree (by omega) h₁.route (Bool.eq_false_iff.mpr hhuge) hthird with
    ⟨rfl, hback⟩ | ⟨c, rfl, h₂⟩ <;> rw [hthird] at h <;> dsimp only at h
  · cases h
    exact Or.inl ⟨⟨_, rfl⟩, rollback_two h₀ h₁ hback⟩
  generalize (s₃.mem pd (index p 2)).frame = pt at h h₂
  split_ifs at h with hmapped
  · cases h
    exact Or.inl ⟨⟨_, rfl⟩, rollback_three h₀ h₁ h₂ (Restored.refl _)⟩
  · cases h
    exact Or.inr ⟨rfl, s₃, pdpt, pd, pt, ⟨s₁, s₂, a, b, c, h₀, h₁, h₂⟩,
      Bool.eq_false_iff.mpr hmapped, rfl⟩

end SaeOS.PageTree
