import SaeOS.Mm.PageTreeUnmap

/-!
# Runs of mappings and unmappings

Mapping a page and unmapping it again meets, at every level, exactly the tables that the mapping
created (`Chain.release`): a level where it found a table has another entry there, so the way up
stops. Over any sequence of both (`Edit`), starting with an empty root, the tables stay a tree and
none but the root is ever empty.
-/

namespace SaeOS.PageTree

open Frame Paging Machine

variable {s s' s'' s₀ s₁ s₂ s₃ : Machine} {root table f g g' d k pdpt pd pt : ℕ}
  {p va : UserAddress} {created created' : Bool}

/-! ## What a mapping does -/

theorem Chain.spec (h : Chain s s₃ root p pdpt pd pt) :
    Tree s₃ root ∧ s₃.route root p 1 = some pdpt ∧ s₃.route root p 2 = some pd ∧
      s₃.route root p 3 = some pt ∧
      (∀ va : UserAddress, s₃.translation root va = s.translation root va) ∧
      Hollow s s₃ root p 3 := by
  obtain ⟨s₁, s₂, a, b, c, h₀, h₁, h₂⟩ := h
  refine ⟨h₂.tree, (h₂.other p 1 (by omega)).trans h₁.above, h₂.above, h₂.route, fun va => ?_, ?_⟩
  · rw [h₂.translation, h₁.translation, h₀.translation]
  · exact h₂.hollow s (h₁.hollow s (h₀.hollow s (Hollow.refl s root p 0)))

/-- The entry of a page is written once the tables on the way are there. -/
theorem Chain.map_spec (h : Chain s s₃ root p pdpt pd pt) {physical : ℕ} {flags : Bits}
    (hflags : flags.present = true)
    (hs' : s' = s₃.write pt (index p 3) ⟨physical, flags⟩) :
    Tree s' root ∧
      (∀ va : UserAddress, s'.translation root va =
        if va.1 / pageSize = p.1 / pageSize then some (3, ⟨physical, flags⟩)
        else s.translation root va) ∧
      Hollow s s' root p 0 := by
  obtain ⟨tree, -, -, hpt, htranslation, hhollow⟩ := h.spec
  subst hs'
  refine ⟨leaf_tree tree hpt fun habsent => ?_, fun va => ?_, ?_⟩
  · rw [show Bits.present flags = false from habsent] at hflags
    cases hflags
  · rw [leaf_translation tree hpt, htranslation]
    congr 1
    simp [ends, hflags]
  · refine (hhollow.leaf tree hpt _).stop ((leaf_route tree hpt le_rfl).trans hpt) ?_
    exact not_tableEmpty (index_lt p 3) (by rw [write_mem_self]; exact hflags)

/-! ## Unmapping what was mapped -/

theorem tableEmpty_of_zero (h : s.mem f = fun _ => {}) : s.tableEmpty f = true := by
  rw [tableEmpty_iff, h]
  exact fun _ _ => rfl

/-- Below a table that was created, everything is created. -/
theorem Stage.next_created (h : Stage s s' root p k table g true)
    (h' : Stage s' s'' root p (k + 1) g g' created) : created = true := by
  by_contra hold
  have hsame := h'.old (Bool.eq_false_iff.mpr hold)
  have hfull := not_tableEmpty_of_route h.route (hsame ▸ h'.route)
  rw [tableEmpty_of_zero (h.new rfl).2] at hfull
  cases hfull

/-- On the way up, a table that was created is empty again, and its link is what created it. -/
theorem Stage.release (h : Stage s s' root p k table g true) (hk : k < 3)
    (hback : Restored s' s'') :
    s''.tableEmpty g = true ∧ Restored s ((s''.free g).write table (index p k) {}) := by
  have hdrop : (s''.free g).write table (index p k) {} = s''.dropTable table (index p k) := by
    rw [dropTable, hback.frame h.tree hk h.above h.route]
    rfl
  refine ⟨?_, ?_⟩
  · refine (tableEmpty_congr (hback.mem g ?_)).trans (tableEmpty_of_zero (h.new rfl).2)
    exact h.tree.refcount_ne_zero (by omega) h.route
  · rw [hdrop]
    exact h.undo s'' hback

/-- A table that was there is not empty. -/
theorem NoEmpty.keeps (h : NoEmpty s root) (tree : Tree s root) (hd1 : 1 ≤ d) (hd : d ≤ 3)
    (hroute : s.route root p d = some f) (hback : Restored s s') : s'.tableEmpty f = false :=
  (tableEmpty_congr (hback.mem f (tree.refcount_ne_zero hd hroute))).trans
    (h p d f hd1 hd hroute)

/-- The tables given back on the way up are those created on the way down. -/
theorem Chain.release (h : Chain s s₃ root p pdpt pd pt) (tree : Tree s root)
    (hfull : NoEmpty s root) : Restored s (s₃.releaseTables root p pdpt pd pt) := by
  obtain ⟨s₁, s₂, a, b, c, h₀, h₁, h₂⟩ := h
  unfold releaseTables
  cases c with
  | false =>
    -- nothing was created
    have hb : b = false := by
      by_contra hb
      rw [Bool.not_eq_false] at hb
      subst hb
      cases h₁.next_created h₂
    subst hb
    have ha : a = false := by
      by_contra ha
      rw [Bool.not_eq_false] at ha
      subst ha
      cases h₀.next_created h₁
    subst ha
    cases h₀.old rfl
    cases h₁.old rfl
    cases h₂.old rfl
    rw [if_neg (by rw [hfull p 3 pt (by omega) le_rfl h₂.route]; decide)]
    exact Restored.refl s
  | true =>
    obtain ⟨hempty, hback⟩ := h₂.release (by omega) (Restored.refl s₃)
    rw [if_pos hempty]
    generalize (s₃.free pt).write pd (index p 2) {} = s₄ at hback ⊢
    cases b with
    | false =>
      have ha : a = false := by
        by_contra ha
        rw [Bool.not_eq_false] at ha
        subst ha
        cases h₀.next_created h₁
      subst ha
      cases h₀.old rfl
      cases h₁.old rfl
      simp only [hfull.keeps tree (by omega) (by omega) h₁.route hback]
      exact hback
    | true =>
      obtain ⟨hempty, hback⟩ := h₁.release (by omega) hback
      simp only [if_pos hempty]
      generalize (s₄.free pd).write pdpt (index p 1) {} = s₅ at hback ⊢
      cases a with
      | false =>
        cases h₀.old rfl
        rw [if_neg (by rw [hfull.keeps tree le_rfl (by omega) h₀.route hback]; decide)]
        exact hback
      | true =>
        obtain ⟨hempty, hback⟩ := h₀.release (by omega) hback
        rw [if_pos hempty]
        exact hback

/-- Clearing an entry just written to a free slot of a tree. -/
theorem write_write_absent (tree : Tree s root) (hpt : s.route root p 3 = some pt)
    (habsent : (s.mem pt (index p 3)).bits.present = false) (entry : Entry) :
    (s.write pt (index p 3) entry).write pt (index p 3) {} = s := by
  have hzero : s.mem pt (index p 3) = {} := tree.cleared le_rfl (slot_of_route hpt) habsent
  simp only [write, Function.update_self, Function.update_idem]
  rw [← hzero, Function.update_eq_self, Function.update_eq_self]

/-- Mapping a page and then unmapping it leads back. -/
theorem unmap_of_map (tree : Tree s root) (hfull : NoEmpty s root) (hp : p.1 % pageSize = 0)
    {physical : ℕ} {flags : Bits} (hflags : flags.present = true)
    (h : s.mapPageInRoot root p physical flags = (.ok (), s')) :
    ∃ s'', s'.unmapPageInRoot root p = (.ok physical, s'') ∧ Restored s s'' := by
  rcases mapPageInRoot_cases tree h with ⟨⟨_, herror⟩, -⟩ |
    ⟨-, s₃, pdpt, pd, pt, hchain, habsent, rfl⟩
  · cases herror
  obtain ⟨tree₃, hpdpt, hpd, hpt, -, -⟩ := hchain.spec
  have htables : (s₃.write pt (index p 3) ⟨physical, flags⟩).tablesTo root p =
      .ok (pdpt, pd, pt) := by
    refine tablesTo_ok.mpr ⟨?_, ?_, ?_⟩
    · rw [leaf_route tree₃ hpt (by omega), hpdpt]
    · rw [leaf_route tree₃ hpt (by omega), hpd]
    · rw [leaf_route tree₃ hpt le_rfl, hpt]
  refine ⟨_, ?_, hchain.release tree hfull⟩
  unfold unmapPageInRoot
  rw [validateUserMapping_ok.mpr ⟨hp, p.2⟩, htables]
  simp only [write_mem_self, hflags, write_write_absent tree₃ hpt habsent]
  rfl

/-! ## Runs -/

/-- One call. -/
inductive Edit
  | map (page : UserAddress) (physical : ℕ) (flags : Bits)
  | unmap (virtualAddress : ℕ)

namespace Edit

/-- The tables and frames after a call, whatever it answered. -/
def run (root : ℕ) : Edit → Machine → Machine
  | map page physical flags, s => (s.mapPageInRoot root page physical flags).2
  | unmap virtualAddress, s => (s.unmapPageInRoot root virtualAddress).2

/-- Pages are mapped with `PRESENT` set, as all `PageFlags` have it. -/
def Valid : Edit → Prop
  | map _ _ flags => flags.present = true
  | unmap _ => True

end Edit

theorem NoEmpty.of_hollow (h : NoEmpty s root) (hhollow : Hollow s s' root p 0) :
    NoEmpty s' root := by
  intro va d f hd1 hd hva
  rw [Bool.eq_false_iff]
  intro hempty
  rcases hhollow va d f hd1 hd hva hempty with ⟨hroute, hold⟩ | ⟨rfl, -⟩
  · rw [h va d f hd1 hd hroute] at hold
    cases hold
  · omega

theorem Restored.noEmpty (h : Restored s s') (tree : Tree s root) (hfull : NoEmpty s root) :
    NoEmpty s' root := by
  intro va d f hd1 hd hva
  rw [h.undisturbed.route tree (by omega)] at hva
  exact hfull.keeps tree hd1 hd hva h

/-- A call, whether it succeeds or not, leaves a tree without empty tables. -/
theorem Edit.run_keeps {edit : Edit} (hedit : edit.Valid) (tree : Tree s root)
    (hfull : NoEmpty s root) :
    Tree (edit.run root s) root ∧ NoEmpty (edit.run root s) root := by
  cases edit with
  | map page physical flags =>
    rcases hresult : s.mapPageInRoot root page physical flags with ⟨result, s'⟩
    rw [run, hresult]
    rcases mapPageInRoot_cases tree hresult with ⟨-, hback⟩ | ⟨-, _, _, _, _, hchain, -, hs'⟩
    · exact ⟨hback.undisturbed.tree tree, hback.noEmpty tree hfull⟩
    · obtain ⟨htree, -, hhollow⟩ := hchain.map_spec hedit hs'
      exact ⟨htree, hfull.of_hollow hhollow⟩
  | unmap virtualAddress =>
    rcases hresult : s.unmapPageInRoot root virtualAddress with ⟨result, s'⟩
    rw [run, hresult]
    rcases unmapPageInRoot_cases hresult with
      ⟨-, hsame⟩ | ⟨_, _, _, _, rfl, hpdpt, hpd, hpt, hpresent, -, hs'⟩
    · rw [hsame]
      exact ⟨tree, hfull⟩
    · obtain ⟨htree, -, hhollow, -⟩ := unmap_spec tree hpdpt hpd hpt hpresent hs'
      exact ⟨htree, hfull.of_hollow hhollow⟩

/-- Over any run of calls. -/
theorem run_keeps {edits : List Edit} (hedits : ∀ edit ∈ edits, edit.Valid) (tree : Tree s root)
    (hfull : NoEmpty s root) :
    Tree (edits.foldl (fun s edit => edit.run root s) s) root ∧
      NoEmpty (edits.foldl (fun s edit => edit.run root s) s) root := by
  induction edits generalizing s with
  | nil => exact ⟨tree, hfull⟩
  | cons edit edits ih =>
    obtain ⟨htree, hfull⟩ := Edit.run_keeps (hedits edit List.mem_cons_self) tree hfull
    exact ih (fun e he => hedits e (List.mem_cons_of_mem _ he)) htree hfull

/-- The user half of a new root. -/
theorem tree_of_zero (hheld : s.pool.refcount root = 1 ∧ s.pool.tracked root = true)
    (hzero : ∀ va : UserAddress, s.mem root (index va 0) = {}) :
    Tree s root ∧ NoEmpty s root := by
  have hroute : ∀ (va : UserAddress) (d f : ℕ), s.route root va d = some f → d = 0 ∧ f = root := by
    intro va d f hva
    cases d with
    | zero =>
      cases hva
      exact ⟨rfl, rfl⟩
    | succ d =>
      obtain ⟨f', hf'⟩ := route_of_le hva (show 1 ≤ d + 1 by omega)
      rw [Machine.route, Machine.route, Option.bind_some, hzero] at hf'
      cases hf'
  refine ⟨⟨fun {va vb d e f} _ _ hva hvb => ?_, fun {va d f} _ hva => ?_,
    fun {va d entry} _ hslot _ => ?_, fun va => by rw [hzero]⟩, fun va d f hd1 _ hva => ?_⟩
  · obtain ⟨rfl, -⟩ := hroute va d f hva
    obtain ⟨rfl, -⟩ := hroute vb e f hvb
    exact ⟨rfl, fun _ hd => absurd hd (Nat.not_lt_zero _)⟩
  · rw [(hroute va d f hva).2]
    exact hheld
  · obtain ⟨f, hf, hentry⟩ := Option.map_eq_some_iff.mp hslot
    obtain ⟨rfl, rfl⟩ := hroute va d f hf
    rw [← hentry, hzero]
  · have := (hroute va d f hva).1
    omega

/-- A free slot of a PDPT or page directory may be given a huge page. -/
theorem huge_tree (tree : Tree s root) (hk1 : 1 ≤ k) (hk : k < 3)
    (hp : s.route root p k = some table) (habsent : (s.mem table (index p k)).bits.present = false)
    {entry : Entry} (hpresent : entry.bits.present = true) (hhuge : entry.bits.huge = true) :
    Tree (s.write table (index p k) entry) root := by
  have hstop : entry.table? = none := by
    rw [Entry.table?, hhuge, Bool.not_true, Bool.and_false]
    rfl
  have hnew : ∀ f, k < 3 → entry.table? = some f → f ≠ table ∧ s.mem f = fun _ => {} := by
    rw [hstop]
    exact fun f _ hf => by cases hf
  have hsub : ∀ {va : UserAddress} {d f : ℕ}, d ≤ 3 →
      (s.write table (index p k) entry).route root va d = some f → s.route root va d = some f := by
    intro va d f hd hva
    rw [tree.route_write hk.le hp hnew hd, hstop, ite_self] at hva
    split_ifs at hva
    exact hva
  refine ⟨fun hd he hva hvb => tree.apart hd he (hsub hd hva) (hsub he hvb),
    fun hd hva => tree.held hd (hsub hd hva), fun {va d e} hd hslot hnone => ?_, fun va => ?_⟩
  · rw [tree.slot_write hk.le hp hnew hd, hstop, Option.map_none, ite_self] at hslot
    split_ifs at hslot
    · cases hslot
      rw [hpresent] at hnone
      cases hnone
    · exact tree.cleared hd hslot hnone
  · have hne : root ≠ table := by
      rintro rfl
      have hroot : s.route root p 0 = some root := rfl
      have := (tree.apart (Nat.zero_le 3) hk.le hroot hp).1
      omega
    rw [write_mem_of_ne _ _ _ hne]
    exact tree.root_small va

/-! ## User page-table editing -/

/-- For every page-table tree: a mapping changes the translation of its page only, or undoes all it
did; an unmapping removes the translation of its page only, and the frames it frees are the tables
that became empty, or it changes nothing. Where no table but the root is empty, unmapping what was
just mapped leads back to the same entries and frames, and no run of calls leaves an empty table. -/
theorem pageTables_edited (tree : Tree s root) :
    (∀ (p : UserAddress) (physical : ℕ) (flags : Bits) (s' : Machine), flags.present = true →
      s.mapPageInRoot root p physical flags = (.ok (), s') →
        Tree s' root ∧ ∀ va : UserAddress, s'.translation root va =
          if va.1 / pageSize = p.1 / pageSize then some (3, ⟨physical, flags⟩)
          else s.translation root va) ∧
    (∀ (p : UserAddress) (physical : ℕ) (flags : Bits) (error : EditError) (s' : Machine),
      s.mapPageInRoot root p physical flags = (.error error, s') → Restored s s') ∧
    (∀ (virtualAddress physical : ℕ) (s' : Machine),
      s.unmapPageInRoot root virtualAddress = (.ok physical, s') →
        ∃ p : UserAddress, p.1 = virtualAddress ∧
          (∃ bits, s.translation root p = some (3, ⟨physical, bits⟩)) ∧ Tree s' root ∧
          (∀ va : UserAddress, s'.translation root va =
            if va.1 / pageSize = p.1 / pageSize then none else s.translation root va) ∧
          FreesEmptied s s' root) ∧
    (∀ (virtualAddress : ℕ) (error : EditError) (s' : Machine),
      s.unmapPageInRoot root virtualAddress = (.error error, s') → s' = s) ∧
    (NoEmpty s root →
      (∀ (p : UserAddress) (physical : ℕ) (flags : Bits) (s' : Machine), p.1 % pageSize = 0 →
        flags.present = true → s.mapPageInRoot root p physical flags = (.ok (), s') →
          ∃ s'', s'.unmapPageInRoot root p = (.ok physical, s'') ∧ Restored s s'') ∧
      ∀ edits : List Edit, (∀ edit ∈ edits, edit.Valid) →
        Tree (edits.foldl (fun s edit => edit.run root s) s) root ∧
          NoEmpty (edits.foldl (fun s edit => edit.run root s) s) root) := by
  refine ⟨fun p physical flags s' hflags h => ?_, fun p physical flags error s' h => ?_,
    fun va physical s' h => ?_, fun va error s' h => ?_, fun hfull => ⟨?_, ?_⟩⟩
  · rcases mapPageInRoot_cases tree h with ⟨⟨_, herror⟩, -⟩ | ⟨-, _, _, _, _, hchain, -, hs'⟩
    · cases herror
    · obtain ⟨htree, htranslation, -⟩ := hchain.map_spec hflags hs'
      exact ⟨htree, htranslation⟩
  · rcases mapPageInRoot_cases tree h with ⟨-, hback⟩ | ⟨hok, -⟩
    · exact hback
    · cases hok
  · rcases unmapPageInRoot_cases h with
      ⟨⟨_, herror⟩, -⟩ | ⟨p, _, _, pt, rfl, hpdpt, hpd, hpt, hpresent, hok, hs'⟩
    · cases herror
    · obtain ⟨htree, htranslation, -, hfrees⟩ := unmap_spec tree hpdpt hpd hpt hpresent hs'
      refine ⟨p, rfl, ⟨(s.mem pt (index p 3)).bits, ?_⟩, htree, htranslation, hfrees⟩
      cases hok
      rw [translation_of_route hpt, slot_of_route hpt]
      simp [ends, hpresent]
  · rcases unmapPageInRoot_cases h with ⟨-, hsame⟩ | ⟨_, _, _, _, -, -, -, -, -, hok, -⟩
    · exact hsame
    · cases hok
  · intro p physical flags s' hp hflags h
    exact unmap_of_map tree hfull hp hflags h
  · exact fun edits hedits => run_keeps hedits tree hfull

/-- A new root, with four free frames. -/
def emptyRoot : Machine where
  mem := fun _ _ => {}
  pool :=
    { refcount := fun f => if f = 0 then 1 else 0
      tracked := fun _ => true
      bytes := fun _ _ => 0
      allocations := [some (1, fun _ => 0), some (2, fun _ => 0), some (3, fun _ => 0),
        some (4, fun _ => 0)] }

/-- The bits of a writable page. -/
def pageBits : Bits :=
  { present := true, writable := true, user := true, noExecute := true }

/-- Page 0 mapped in three new tables, and a huge page next to it in the page directory. -/
def nextToHuge : Machine :=
  (emptyRoot.mapPageInRoot 0 0 7 pageBits).2.write 2 1 ⟨512, { pageBits with huge := true }⟩

theorem emptyRoot_tree : Tree emptyRoot 0 :=
  (tree_of_zero ⟨rfl, rfl⟩ fun _ => rfl).1

theorem nextToHuge_tree : Tree nextToHuge 0 := by
  have hmapped : Tree (emptyRoot.mapPageInRoot 0 (⟨0, by decide⟩ : UserAddress) 7 pageBits).2 0 := by
    have hok : emptyRoot.mapPageInRoot 0 (⟨0, by decide⟩ : UserAddress) 7 pageBits =
      (.ok (), (emptyRoot.mapPageInRoot 0 (⟨0, by decide⟩ : UserAddress) 7 pageBits).2) := rfl
    rcases mapPageInRoot_cases emptyRoot_tree hok with
      ⟨⟨_, herror⟩, -⟩ | ⟨-, _, _, _, _, hchain, -, hs'⟩
    · cases herror
    · exact (hchain.map_spec rfl hs').1
  have hhuge : Tree (Machine.write _ 2 (index (⟨0x200000, by decide⟩ : UserAddress) 2)
      ⟨512, { pageBits with huge := true }⟩) 0 :=
    huge_tree hmapped (by decide) (by decide) rfl rfl rfl rfl
  exact hhuge

/-- A page under the huge one cannot be mapped, and trying changes nothing; page 0 can be unmapped. -/
theorem nextToHuge_edited :
    Restored nextToHuge (nextToHuge.mapPageInRoot 0 0x200000 8 pageBits).2 ∧
      (nextToHuge.unmapPageInRoot 0 0).2.translation 0 0 = none := by
  refine ⟨(pageTables_edited nextToHuge_tree).2.1 ⟨0x200000, by decide⟩ 8 pageBits .hugePage _ rfl,
    ?_⟩
  have hok : (nextToHuge.unmapPageInRoot 0 0).1 = .ok 7 := rfl
  obtain ⟨s', hs'⟩ : ∃ s', nextToHuge.unmapPageInRoot 0 0 = (.ok 7, s') := ⟨_, Prod.ext hok rfl⟩
  rw [hs']
  obtain ⟨p, hp, -, -, htranslation, -⟩ := (pageTables_edited nextToHuge_tree).2.2.1 0 7 s' hs'
  have hzero := htranslation p
  rwa [if_pos rfl, hp] at hzero

end SaeOS.PageTree
