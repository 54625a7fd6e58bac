import Mathlib.Algebra.Group.Nat.Defs
import Mathlib.Data.List.Nodup
import SaeOS.Lib.Run
import SaeOS.Lib.Vec

/-!
# The address-space registry

`mm/address_space.rs`: the scheduler and the process table know address spaces by number, and the
registry maps a number to the root that is loaded for it. A space that is owned is torn down by
`release`. The root that is loaded is always that of an owned space, since numbers are not used
again, though `activate_if_changed` compares numbers only.
-/

namespace SaeOS.AddressSpaces

/-- `u64::MAX`, which is the kernel in `ACTIVE_ADDRESS_SPACE`, and where `saturating_add` stops. -/
def kernelId : ℕ := 2 ^ 64 - 1

/-- `AddressSpaceError`. -/
inductive AddressSpaceError
  | unknown
  | alreadyBound
  deriving DecidableEq, Repr

/-- `position` and `swap_remove`. -/
def take {α : Type*} (l : List (ℕ × α)) (id : ℕ) : Option (α × List (ℕ × α)) :=
  (l.findIdx? fun e => e.1 == id).bind fun i => l[i]?.map fun e => (e.2, Vec.swapRemove l i)

/-- `find` of a mutable entry. -/
def modify {α : Type*} (f : α → α) (id : ℕ) : List (ℕ × α) → List (ℕ × α)
  | [] => []
  | e :: l => if e.1 == id then (e.1, f e.2) :: l else e :: modify f id l

structure AddressSpaceRegistry (Frame : Type*) where
  entries : List (ℕ × Frame)
  nextId : ℕ

namespace AddressSpaceRegistry

variable {Frame : Type*}

def register (r : AddressSpaceRegistry Frame) (root : Frame) : ℕ × AddressSpaceRegistry Frame :=
  (r.nextId, ⟨r.entries ++ [(r.nextId, root)], min (r.nextId + 1) kernelId⟩)

def unregister (r : AddressSpaceRegistry Frame) (id : ℕ) :
    Except AddressSpaceError (Frame × AddressSpaceRegistry Frame) :=
  match take r.entries id with
  | none => .error .unknown
  | some (root, entries) => .ok (root, { r with entries })

def root (r : AddressSpaceRegistry Frame) (id : ℕ) : Except AddressSpaceError Frame :=
  match r.entries.find? fun e => e.1 == id with
  | none => .error .unknown
  | some e => .ok e.2

end AddressSpaceRegistry

/-- `ADDRESS_SPACES`, `OWNED`, `ACTIVE_ADDRESS_SPACE` and CR3; no root is that of the kernel. -/
structure Machine (Frame Space : Type*) where
  registry : AddressSpaceRegistry Frame
  owned : List (ℕ × Space)
  active : ℕ
  loaded : Option Frame

namespace Machine

variable {Frame Space : Type*}

/-- `register_owned_with_map`; `rootFrame` is `root_frame`. -/
def registerOwned (rootFrame : Space → Frame) (m : Machine Frame Space) (space : Space) :
    ℕ × Machine Frame Space :=
  let (id, registry) := m.registry.register (rootFrame space)
  (id, { m with registry, owned := m.owned ++ [(id, space)] })

/-- `with_owned_mut`. -/
def withOwnedMut (m : Machine Frame Space) (id : ℕ) (operation : Space → Space) :
    Except AddressSpaceError Unit × Machine Frame Space :=
  if m.owned.any fun e => e.1 == id then (.ok (), { m with owned := modify operation id m.owned })
  else (.error .unknown, m)

/-- `release`, with the space that is torn down; `none` is the failed assertion. -/
def release (m : Machine Frame Space) (id : ℕ) :
    Option (Except AddressSpaceError Unit × Option Space × Machine Frame Space) :=
  if m.active = id ∧ id ≠ kernelId then none
  else
    match take m.owned id with
    | none => some (.error .unknown, none, m)
    | some (space, owned) =>
      match m.registry.unregister id with
      | .error e => some (.error e, some space, { m with owned })
      | .ok (_, registry) => some (.ok (), some space, { m with owned, registry })

/-- `activate_if_changed`. -/
def activateIfChanged (m : Machine Frame Space) (id : Option ℕ) :
    Except AddressSpaceError Bool × Machine Frame Space :=
  let encoded := id.getD kernelId
  if m.active = encoded then (.ok false, m)
  else
    match id with
    | none => (.ok true, { m with active := encoded, loaded := none })
    | some id =>
      match m.registry.root id with
      | .error e => (.error e, m)
      | .ok root => (.ok true, { m with active := encoded, loaded := some root })

end Machine

/-! ## Tables with unique numbers -/

section Tables

variable {α : Type*} {l l' : List (ℕ × α)} {id : ℕ} {v w : α}

/-- The numbers of a table are different. -/
def Unique (l : List (ℕ × α)) : Prop :=
  (l.map Prod.fst).Nodup

theorem Unique.eq (h : Unique l) (hv : (id, v) ∈ l) (hw : (id, w) ∈ l) : v = w :=
  congrArg Prod.snd (List.inj_on_of_nodup_map h hv hw rfl)

theorem Unique.concat (h : Unique l) (hid : ∀ w, (id, w) ∉ l) (v : α) :
    Unique (l ++ [(id, v)]) := by
  rw [Unique, List.map_append, List.map_singleton]
  refine List.nodup_append.mpr ⟨h, List.nodup_singleton _, fun a ha b hb heq => ?_⟩
  obtain ⟨e, he, rfl⟩ := List.mem_map.mp ha
  have hkey : e.1 = id := heq.trans (List.mem_singleton.mp hb)
  exact hid e.2 (hkey ▸ he)

theorem take_eq_none : take l id = none ↔ ∀ v, (id, v) ∉ l := by
  have hfind : take l id = none ↔ (l.findIdx? fun e => e.1 == id) = none := by
    rw [take]
    cases hi : l.findIdx? fun e => e.1 == id with
    | none => simp
    | some i =>
      obtain ⟨hlt, -⟩ := List.findIdx?_eq_some_iff_getElem.mp hi
      simp [List.getElem?_eq_getElem hlt]
  rw [hfind, List.findIdx?_eq_none_iff]
  constructor
  · intro hnone v hv
    have := hnone _ hv
    simp at this
  · intro hnone e he
    rw [beq_eq_false_iff_ne]
    intro heq
    exact hnone e.2 (heq ▸ he)

/-- Taking out an entry takes out that entry. -/
theorem Unique.take (h : Unique l) (htake : AddressSpaces.take l id = some (v, l')) :
    (id, v) ∈ l ∧ Unique l' ∧ ∀ e, e ∈ l' ↔ e ∈ l ∧ e.1 ≠ id := by
  obtain ⟨i, hi, hmap⟩ := Option.bind_eq_some_iff.mp htake
  obtain ⟨e, he, heq⟩ := Option.map_eq_some_iff.mp hmap
  obtain ⟨rfl, rfl⟩ := Prod.mk.inj heq
  obtain ⟨hlt, hid, -⟩ := List.findIdx?_eq_some_iff_getElem.mp hi
  rw [List.getElem?_eq_getElem hlt] at he
  rw [Option.some.inj he, beq_iff_eq] at hid
  subst hid
  have hperm := Vec.perm_swapRemove ((List.getElem?_eq_getElem hlt).trans he)
  have hnodup : (e.1 :: (Vec.swapRemove l i).map Prod.fst).Nodup :=
    (hperm.map Prod.fst).nodup_iff.mpr h
  obtain ⟨hnot, hrest⟩ := List.nodup_cons.mp hnodup
  refine ⟨hperm.subset List.mem_cons_self, hrest, fun x => ?_⟩
  rw [← hperm.mem_iff, List.mem_cons]
  constructor
  · intro hx
    exact ⟨.inr hx, fun heq => hnot (heq ▸ List.mem_map_of_mem hx)⟩
  · rintro ⟨rfl | hx, hne⟩
    · exact absurd rfl hne
    · exact hx

theorem map_fst_modify (f : α → α) : (modify f id l).map Prod.fst = l.map Prod.fst := by
  induction l with
  | nil => rfl
  | cons e l ih =>
    rw [modify]
    split_ifs
    · rfl
    · rw [List.map_cons, List.map_cons, ih]

theorem mem_modify {f : α → α} {e : ℕ × α} (h : e ∈ modify f id l) :
    ∃ v, (e.1, v) ∈ l ∧ (e.2 = v ∨ e.2 = f v) := by
  induction l with
  | nil => cases h
  | cons x l ih =>
    rw [modify] at h
    split_ifs at h
    · obtain rfl | h := List.mem_cons.mp h
      · exact ⟨x.2, List.mem_cons_self, .inr rfl⟩
      · exact ⟨e.2, List.mem_cons_of_mem _ h, .inl rfl⟩
    · obtain rfl | h := List.mem_cons.mp h
      · exact ⟨e.2, List.mem_cons_self, .inl rfl⟩
      · obtain ⟨v, hv, heq⟩ := ih h
        exact ⟨v, List.mem_cons_of_mem _ hv, heq⟩

theorem exists_mem_modify (f : α → α) (h : (id, v) ∈ l) (key : ℕ) :
    ∃ w, (id, w) ∈ modify f key l ∧ (w = v ∨ w = f v) := by
  induction l with
  | nil => cases h
  | cons x l ih =>
    rw [modify]
    split_ifs
    · obtain rfl | h := List.mem_cons.mp h
      · exact ⟨f v, List.mem_cons_self, .inr rfl⟩
      · exact ⟨v, List.mem_cons_of_mem _ h, .inl rfl⟩
    · obtain rfl | h := List.mem_cons.mp h
      · exact ⟨v, List.mem_cons_self, .inl rfl⟩
      · obtain ⟨w, hw, heq⟩ := ih h
        exact ⟨w, List.mem_cons_of_mem _ hw, heq⟩

end Tables

variable {Frame Space : Type*} {rootFrame : Space → Frame} {m m' : Machine Frame Space} {id : ℕ}
  {root : Frame}

theorem AddressSpaceRegistry.root_eq_ok {r : AddressSpaceRegistry Frame} (h : Unique r.entries) :
    r.root id = .ok root ↔ (id, root) ∈ r.entries := by
  unfold AddressSpaceRegistry.root
  cases hfind : r.entries.find? fun e => e.1 == id with
  | none =>
    refine iff_of_false (fun h => by contradiction) fun hmem => ?_
    have := List.find?_eq_none.mp hfind _ hmem
    simp at this
  | some e =>
    have hid : e.1 = id := by simpa using List.find?_some hfind
    subst hid
    have he := List.mem_of_find?_eq_some hfind
    refine ⟨fun heq => ?_, fun hmem => congrArg Except.ok (h.eq he hmem)⟩
    rw [← Except.ok.inj heq]
    exact he

theorem AddressSpaceRegistry.root_eq_unknown {r : AddressSpaceRegistry Frame} (h : Unique r.entries)
    (hnone : ∀ root, (id, root) ∉ r.entries) : r.root id = .error .unknown := by
  cases hroot : r.root id with
  | ok root => exact absurd ((root_eq_ok h).mp hroot) (hnone root)
  | error e =>
    unfold AddressSpaceRegistry.root at hroot
    split at hroot
    · exact hroot.symm
    · contradiction

namespace Machine

/-- What holds between two calls. -/
structure Inv (rootFrame : Space → Frame) (m : Machine Frame Space) : Prop where
  entries : Unique m.registry.entries
  owned : Unique m.owned
  below : ∀ e ∈ m.registry.entries, e.1 < m.registry.nextId
  bound : m.registry.nextId ≤ kernelId
  same : ∀ id root, (id, root) ∈ m.registry.entries ↔ ∃ space, (id, space) ∈ m.owned ∧
    rootFrame space = root
  active : m.active = kernelId ∧ m.loaded = none ∨ ∃ root, m.loaded = some root ∧
    (m.active, root) ∈ m.registry.entries

/-- What `release` comes to: the space of that number goes, and no other. -/
structure Releases (m m' : Machine Frame Space) (id : ℕ) (space : Space) : Prop where
  registered : (id, space) ∈ m.owned
  inactive : m.active ≠ id
  entries : ∀ e, e ∈ m'.registry.entries ↔ e ∈ m.registry.entries ∧ e.1 ≠ id
  owned : ∀ e, e ∈ m'.owned ↔ e ∈ m.owned ∧ e.1 ≠ id
  nextId : m'.registry.nextId = m.registry.nextId
  active : m'.active = m.active
  loaded : m'.loaded = m.loaded

theorem Inv.release {r : Except AddressSpaceError Unit} {torn : Option Space} (h : Inv rootFrame m)
    (hrelease : m.release id = some (r, torn, m')) : Inv rootFrame m' ∧
      ((∃ space, r = .ok () ∧ torn = some space ∧ Releases m m' id space) ∨
        r = .error .unknown ∧ torn = none ∧ m' = m ∧ ∀ space, (id, space) ∉ m.owned) := by
  unfold Machine.release at hrelease
  split_ifs at hrelease with hactive
  cases htake : take m.owned id with
  | none =>
    rw [htake] at hrelease
    obtain ⟨rfl, hrest⟩ := Prod.mk.inj (Option.some.inj hrelease)
    obtain ⟨rfl, rfl⟩ := Prod.mk.inj hrest
    exact ⟨h, .inr ⟨rfl, rfl, rfl, take_eq_none.mp htake⟩⟩
  | some taken =>
    rw [htake] at hrelease
    obtain ⟨space, owned⟩ := taken
    obtain ⟨hspace, howned, hmem⟩ := h.owned.take htake
    have hentry : (id, rootFrame space) ∈ m.registry.entries :=
      (h.same id _).mpr ⟨space, hspace, rfl⟩
    unfold AddressSpaceRegistry.unregister at hrelease
    cases hentries : take m.registry.entries id with
    | none => exact absurd hentry (take_eq_none.mp hentries _)
    | some found =>
      rw [hentries] at hrelease
      obtain ⟨root, entries⟩ := found
      obtain ⟨-, hunique, hmem'⟩ := h.entries.take hentries
      obtain ⟨rfl, hrest⟩ := Prod.mk.inj (Option.some.inj hrelease)
      obtain ⟨rfl, rfl⟩ := Prod.mk.inj hrest
      have hne : m.active ≠ id := fun heq => by
        refine hactive ⟨heq, fun hkernel => ?_⟩
        have hlt := h.below _ hentry
        exact absurd h.bound (by dsimp only at hlt; omega)
      refine ⟨⟨hunique, howned, fun e he => h.below e ((hmem' e).mp he).1, h.bound,
        fun id' root' => ?_, ?_⟩,
        .inl ⟨space, rfl, rfl, hspace, hne, hmem', hmem, rfl, rfl, rfl⟩⟩
      · change (id', root') ∈ entries ↔ ∃ space, (id', space) ∈ owned ∧ _
        simp only [hmem', hmem, h.same]
        constructor
        · rintro ⟨⟨space', hspace', hroot⟩, hid⟩
          exact ⟨space', ⟨hspace', hid⟩, hroot⟩
        · rintro ⟨space', ⟨hspace', hid⟩, hroot⟩
          exact ⟨⟨space', hspace', hroot⟩, hid⟩
      · refine h.active.imp_right ?_
        rintro ⟨root', hloaded, hroot⟩
        exact ⟨root', hloaded, (hmem' _).mpr ⟨hroot, hne⟩⟩

/-- `activate_if_changed` loads the root of the number, whether it compares or loads. -/
theorem Inv.activate {id : Option ℕ} {r : Except AddressSpaceError Bool} (h : Inv rootFrame m)
    (hactivate : m.activateIfChanged id = (r, m')) :
    Inv rootFrame m' ∧ m'.registry = m.registry ∧ m'.owned = m.owned ∧
      (∀ changed, r = .ok changed → (id = none → m'.loaded = none) ∧
        ∀ n, id = some n → n ≠ kernelId → ∃ root, m'.loaded = some root ∧
          (n, root) ∈ m.registry.entries) ∧
      ∀ e, r = .error e → m' = m := by
  unfold Machine.activateIfChanged at hactivate
  dsimp only at hactivate
  have hnone : m.active = kernelId → m.loaded = none := fun hkernel => by
    obtain ⟨-, hloaded⟩ | ⟨root, -, hroot⟩ := h.active
    · exact hloaded
    · have hlt := h.below _ hroot
      exact absurd h.bound (by dsimp only at hlt; omega)
  split_ifs at hactivate with hsame
  · obtain ⟨rfl, rfl⟩ := Prod.mk.inj hactivate
    refine ⟨h, rfl, rfl, fun changed _ => ⟨fun hid => ?_, fun n hid hn => ?_⟩,
      fun e he => by contradiction⟩
    · rw [hid] at hsame
      exact hnone hsame
    · rw [hid, Option.getD_some] at hsame
      obtain ⟨hkernel, -⟩ | ⟨root, hloaded, hroot⟩ := h.active
      · exact absurd (hsame.symm.trans hkernel) hn
      · exact ⟨root, hloaded, hsame ▸ hroot⟩
  · cases id with
    | none =>
      obtain ⟨rfl, rfl⟩ := Prod.mk.inj hactivate
      exact ⟨⟨h.entries, h.owned, h.below, h.bound, h.same, .inl ⟨rfl, rfl⟩⟩, rfl, rfl,
        fun changed _ => ⟨fun _ => rfl, fun n hid => by contradiction⟩,
          fun e he => by contradiction⟩
    | some n =>
      cases hroot : m.registry.root n with
      | error e =>
        simp only [hroot] at hactivate
        obtain ⟨rfl, rfl⟩ := Prod.mk.inj hactivate
        exact ⟨h, rfl, rfl, fun changed hr => by contradiction, fun _ _ => rfl⟩
      | ok root =>
        simp only [hroot] at hactivate
        obtain ⟨rfl, rfl⟩ := Prod.mk.inj hactivate
        have hmem := (AddressSpaceRegistry.root_eq_ok h.entries).mp hroot
        refine ⟨⟨h.entries, h.owned, h.below, h.bound, h.same, .inr ⟨root, rfl, hmem⟩⟩, rfl, rfl,
          fun changed _ => ⟨fun hid => by contradiction, fun n' hid _ => ?_⟩,
            fun e he => by contradiction⟩
        obtain rfl := Option.some.inj hid
        exact ⟨root, rfl, hmem⟩

theorem Inv.registerOwned (h : Inv rootFrame m) (hlt : m.registry.nextId < kernelId)
    (space : Space) :
    Inv rootFrame (m.registerOwned rootFrame space).2 := by
  have hnew : ∀ root, (m.registry.nextId, root) ∉ m.registry.entries :=
    fun root hmem => Nat.lt_irrefl _ (h.below _ hmem)
  have hfree : ∀ space, (m.registry.nextId, space) ∉ m.owned := fun space hmem =>
    hnew _ ((h.same _ _).mpr ⟨space, hmem, rfl⟩)
  have hnext : min (m.registry.nextId + 1) kernelId = m.registry.nextId + 1 := Nat.min_eq_left hlt
  refine ⟨h.entries.concat hnew _, h.owned.concat hfree _, fun e he => ?_, Nat.min_le_right ..,
    fun id root => ?_, ?_⟩
  · change e.1 < min (m.registry.nextId + 1) kernelId
    rw [hnext]
    obtain he | he := List.mem_append.mp he
    · exact Nat.lt_succ_of_lt (h.below e he)
    · rw [List.mem_singleton.mp he]
      exact Nat.lt_succ_self _
  · change (id, root) ∈ m.registry.entries ++ [(m.registry.nextId, rootFrame space)] ↔
      ∃ space', (id, space') ∈ m.owned ++ [(m.registry.nextId, space)] ∧ _
    simp only [List.mem_append, List.mem_singleton, Prod.mk.injEq, h.same]
    constructor
    · rintro (⟨space', hmem, hroot⟩ | ⟨rfl, rfl⟩)
      · exact ⟨space', .inl hmem, hroot⟩
      · exact ⟨space, .inr ⟨rfl, rfl⟩, rfl⟩
    · rintro ⟨space', hmem | ⟨rfl, rfl⟩, hroot⟩
      · exact .inl ⟨space', hmem, hroot⟩
      · exact .inr ⟨rfl, hroot.symm⟩
  · refine h.active.imp_right ?_
    rintro ⟨root, hloaded, hroot⟩
    exact ⟨root, hloaded, List.mem_append_left _ hroot⟩

theorem Inv.withOwnedMut {operation : Space → Space} (h : Inv rootFrame m)
    (hroot : ∀ space, rootFrame (operation space) = rootFrame space) :
    Inv rootFrame (m.withOwnedMut id operation).2 := by
  unfold Machine.withOwnedMut
  split_ifs
  · refine ⟨h.entries, ?_, h.below, h.bound, fun id' root => (h.same id' root).trans ?_, h.active⟩
    · rw [Unique, map_fst_modify]
      exact h.owned
    · constructor
      · rintro ⟨space, hmem, rfl⟩
        obtain ⟨space', hmem', rfl | rfl⟩ := exists_mem_modify operation hmem id
        · exact ⟨space', hmem', rfl⟩
        · exact ⟨_, hmem', hroot space⟩
      · rintro ⟨space, hmem, rfl⟩
        obtain ⟨space', hmem', heq | heq⟩ := mem_modify hmem
        · exact ⟨space', hmem', congrArg rootFrame heq.symm⟩
        · exact ⟨space', hmem', ((congrArg rootFrame heq).trans (hroot space')).symm⟩
  · exact h

/-! ## Runs -/

/-- The calls of the scheduler, `exec`, `fork` and `exit`. -/
inductive Op (Space : Type*)
  | register (space : Space)
  | update (id : ℕ) (operation : Space → Space)
  | release (id : ℕ)
  | activate (id : Option ℕ)

/-- One call that does not panic. An operation on a space keeps its root. -/
def Step (rootFrame : Space → Frame) (m : Machine Frame Space) :
    Op Space → Machine Frame Space → Prop
  | .register space, m' => m.registry.nextId < kernelId ∧ m' = (m.registerOwned rootFrame space).2
  | .update id operation, m' =>
    (∀ space, rootFrame (operation space) = rootFrame space) ∧ m' = (m.withOwnedMut id operation).2
  | .release id, m' => ∃ r torn, m.release id = some (r, torn, m')
  | .activate id, m' => m' = (m.activateIfChanged id).2

def Initial (m : Machine Frame Space) : Prop :=
  m = ⟨⟨[], 1⟩, [], kernelId, none⟩

/-- What fewer than `u64::MAX` registrations reach. -/
def Reachable (rootFrame : Space → Frame) : Machine Frame Space → Prop :=
  Run.Reachable Initial (Step rootFrame)

theorem Inv.step {op : Op Space} (h : Inv rootFrame m) (hstep : Step rootFrame m op m') :
    Inv rootFrame m' ∧ ∀ id < m.registry.nextId, (∀ root, (id, root) ∉ m.registry.entries) →
      id < m'.registry.nextId ∧ ∀ root, (id, root) ∉ m'.registry.entries := by
  cases op with
  | register space =>
    obtain ⟨hlt, rfl⟩ := hstep
    refine ⟨h.registerOwned hlt space, fun id hid hgone => ⟨?_, fun root hmem => ?_⟩⟩
    · change id < min (m.registry.nextId + 1) kernelId
      omega
    · obtain hmem | hmem := List.mem_append.mp hmem
      · exact hgone root hmem
      · exact Nat.ne_of_lt hid (congrArg Prod.fst (List.mem_singleton.mp hmem))
  | update id operation =>
    obtain ⟨hroot, rfl⟩ := hstep
    refine ⟨h.withOwnedMut hroot, fun id' hid hgone => ?_⟩
    unfold Machine.withOwnedMut
    split_ifs
    · exact ⟨hid, hgone⟩
    · exact ⟨hid, hgone⟩
  | release id =>
    obtain ⟨r, torn, hrelease⟩ := hstep
    obtain ⟨hinv, ⟨space, -, -, hreleases⟩ | ⟨-, -, rfl, -⟩⟩ := h.release hrelease
    · exact ⟨hinv, fun id' hid hgone => ⟨hreleases.nextId ▸ hid, fun root hmem =>
        hgone root ((hreleases.entries _).mp hmem).1⟩⟩
    · exact ⟨hinv, fun id' hid hgone => ⟨hid, hgone⟩⟩
  | activate id =>
    have heq : m' = (m.activateIfChanged id).2 := hstep
    obtain ⟨hinv, hregistry, -⟩ := h.activate (show m.activateIfChanged id = (_, m') by rw [heq])
    exact ⟨hinv, fun id' hid hgone => by rw [hregistry]; exact ⟨hid, hgone⟩⟩

theorem Initial.inv (h : Initial m) : Inv rootFrame m := by
  obtain rfl : m = _ := h
  refine ⟨List.nodup_nil, List.nodup_nil, fun e he => (by cases he), show 1 ≤ kernelId by decide,
    fun id root => ?_,
    .inl ⟨rfl, rfl⟩⟩
  refine iff_of_false (fun hmem => by cases hmem) ?_
  rintro ⟨space, hmem, -⟩
  cases hmem

theorem Reachable.inv (h : Reachable rootFrame m) : Inv rootFrame m := by
  have hrun : Run.Reachable Initial (Step rootFrame) m := h
  exact hrun.invariant (P := Inv rootFrame) (fun _ => Initial.inv) fun _ _ _ hm hstep =>
    (hm.step hstep).1

/-- **The loaded root is live.** In every reached state CR3 holds the root of an owned space, under
its active number, or that of the kernel. A successful `activate_if_changed` loads the root of the
number it is given, also where it only compares numbers. -/
theorem Reachable.activate_loads {id : Option ℕ} {r : Except AddressSpaceError Bool}
    (h : Reachable rootFrame m)
    (hactivate : m.activateIfChanged id = (r, m')) :
    (m.active = kernelId ∧ m.loaded = none ∨
      ∃ space, (m.active, space) ∈ m.owned ∧ m.loaded = some (rootFrame space)) ∧
    (∀ changed, r = .ok changed → (id = none → m'.loaded = none) ∧ ∀ n, id = some n → n ≠ kernelId →
      ∃ space, (n, space) ∈ m.owned ∧ m'.loaded = some (rootFrame space)) ∧
    ∀ e, r = .error e → m' = m := by
  obtain ⟨-, -, -, hok, herror⟩ := h.inv.activate hactivate
  refine ⟨h.inv.active.imp_right ?_,
    fun changed hr => ⟨(hok changed hr).1, fun n hid hn => ?_⟩, herror⟩
  · rintro ⟨root, hloaded, hroot⟩
    obtain ⟨space, hmem, rfl⟩ := (h.inv.same _ _).mp hroot
    exact ⟨space, hmem, hloaded⟩
  · obtain ⟨root, hloaded, hroot⟩ := (hok changed hr).2 n hid hn
    obtain ⟨space, hmem, rfl⟩ := (h.inv.same _ _).mp hroot
    exact ⟨space, hmem, hloaded⟩

/-- One space, whose root is loaded and asked for again. -/
theorem activate_loads_one : ∃ m m' :
    Machine Bool Bool, m.activateIfChanged (some 1) = (.ok false, m') ∧
    ∃ space, (1, space) ∈ m.owned ∧ m'.loaded = some (!space) := by
  have hstart : Reachable not (⟨⟨[], 1⟩, [], kernelId, none⟩ : Machine Bool Bool) := .start rfl
  have hregister : Reachable not
    (⟨⟨[(1, false)], 2⟩, [(1, true)], kernelId, none⟩ : Machine Bool Bool) :=
    Run.Reachable.next hstart (show Step not _ (.register true) _ from ⟨by decide, rfl⟩)
  have hactive : Reachable not
    (⟨⟨[(1, false)], 2⟩, [(1, true)], 1, some false⟩ : Machine Bool Bool) :=
    Run.Reachable.next hregister (show Step not _ (.activate (some 1)) _ from rfl)
  have hagain : (⟨⟨[(1, false)], 2⟩, [(1, true)], 1, some false⟩ : Machine Bool
    Bool).activateIfChanged (some 1) =
      (.ok false, ⟨⟨[(1, false)], 2⟩, [(1, true)], 1, some false⟩) := rfl
  exact ⟨_, _, hagain, ((hactive.activate_loads hagain).2.1 false rfl).2 1 rfl (by decide)⟩

/-- **Teardown happens once.** `release` of a number in a reached state tears down the space that
was registered under it, which is not active, leaves every other number alone, and the number is
unknown in every run from there on; of a number that is unknown it does nothing. -/
theorem Reachable.release_once {t : Machine Frame Space} {r : Except AddressSpaceError Unit}
    {torn : Option Space}
    (h : Reachable rootFrame m) (hrelease : m.release id = some (r, torn, m'))
    (hrun : Run.Reachable (· = m') (Step rootFrame) t) :
    (r = .ok () ∧ (∃ space, torn = some space ∧ (id, space) ∈ m.owned) ∧ m.active ≠ id ∧
        (∀ n root, n ≠ id → (m'.registry.root n = .ok root ↔ m.registry.root n = .ok root)) ∧
        t.registry.root id = .error .unknown) ∨
      r = .error .unknown ∧ torn = none ∧ m' = m ∧ ∀ space, (id, space) ∉ m.owned := by
  obtain ⟨hinv, ⟨space, hr, htorn, hreleases⟩ | hunknown⟩ := h.inv.release hrelease
  · refine .inl ⟨hr, ⟨space, htorn, hreleases.registered⟩, hreleases.inactive,
      fun n root hn => ?_, ?_⟩
    · rw [AddressSpaceRegistry.root_eq_ok hinv.entries,
        AddressSpaceRegistry.root_eq_ok h.inv.entries, hreleases.entries]
      exact and_iff_left hn
    · have hgone : ∀ root, (id, root) ∉ m'.registry.entries :=
        fun root hmem => ((hreleases.entries _).mp hmem).2 rfl
      have hid : id < m'.registry.nextId := by
        rw [hreleases.nextId]
        exact h.inv.below (id, rootFrame space)
          ((h.inv.same _ _).mpr ⟨space, hreleases.registered, rfl⟩)
      have hlast : Inv rootFrame t ∧ id < t.registry.nextId ∧
        ∀ root, (id, root) ∉ t.registry.entries := by
        refine hrun.invariant (P := fun t => Inv rootFrame t ∧ id < t.registry.nextId ∧
          ∀ root, (id, root) ∉ t.registry.entries) (fun t ht => ?_) fun t op t' ht hstep => ?_
        · subst ht
          exact ⟨hinv, hid, hgone⟩
        · obtain ⟨hinv', hstale⟩ := ht.1.step hstep
          exact ⟨hinv', hstale id ht.2.1 ht.2.2⟩
      exact AddressSpaceRegistry.root_eq_unknown hlast.1.entries hlast.2.2
  · exact .inr hunknown

theorem release_once_one : ∃ m m' : Machine Bool Bool, m.release 1 = some (.ok (), some true, m') ∧
    m'.registry.root 1 = .error .unknown := by
  have hstart : Reachable not (⟨⟨[], 1⟩, [], kernelId, none⟩ : Machine Bool Bool) := .start rfl
  have hregister : Reachable not
    (⟨⟨[(1, false)], 2⟩, [(1, true)], kernelId, none⟩ : Machine Bool Bool) :=
    Run.Reachable.next hstart (show Step not _ (.register true) _ from ⟨by decide, rfl⟩)
  have hrelease : (⟨⟨[(1, false)], 2⟩, [(1, true)], kernelId, none⟩ : Machine Bool Bool).release 1 =
      some (.ok (), some true, ⟨⟨[], 2⟩, [], kernelId, none⟩) := rfl
  obtain ⟨-, -, -, -, hgone⟩ | ⟨hunknown, -⟩ := hregister.release_once hrelease (.start rfl)
  · exact ⟨_, _, hrelease, hgone⟩
  · contradiction

end Machine

end SaeOS.AddressSpaces
