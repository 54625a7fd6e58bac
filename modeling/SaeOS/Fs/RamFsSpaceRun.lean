import SaeOS.Fs.RamFsSpace

/-!
# Space accounting in every run

The invariant behind `used`: an inode is in the store exactly as long as it is live, a dead directory is
empty, and a directory that is not dead is linked. So a dropped directory lists nothing, and a drop
never takes away the last reference to another inode.
-/

namespace SaeOS.Fs

open RamFs (Rename)

namespace RamFs

variable {fs fs' : RamFs} {ino i j d : ℕ} {name n : Name}

/-! ## Lengths and their sum -/

/-- The bytes of all files in the store. -/
def total (fs : RamFs) : ℕ :=
  ∑ i ∈ Finset.range fs.nextIno, fs.fileLength i

theorem fileLength_of_file {data : List UInt8} (h : fs.node i = some (.file data)) :
    fs.fileLength i = data.length := by
  rw [fileLength, h]

theorem fileLength_of_absent (h : fs.node i = none) : fs.fileLength i = 0 := by
  rw [fileLength, h]

/-- A change of a directory leaves the other inodes, and a directory a directory. -/
theorem node_setDir (f : RamDir → RamDir) : (fs.setDir ino f).node i = fs.node i ∨
    ∃ c c', fs.node i = some (.dir c) ∧ (fs.setDir ino f).node i = some (.dir c') := by
  unfold setDir
  split
  · rename_i c hc
    by_cases hi : i = ino
    · subst hi
      obtain ⟨node, hnode, hasDir⟩ := Option.bind_eq_some_iff.mp hc
      cases node with
      | file data => contradiction
      | dir c' => exact .inr ⟨c', f c, hnode, Function.update_self _ _ _⟩
    · exact .inl (Function.update_of_ne hi _ _)
  · exact .inl rfl

/-- A directory has no length, whatever is done to it. -/
theorem fileLength_setDir (f : RamDir → RamDir) :
    (fs.setDir ino f).fileLength i = fs.fileLength i := by
  obtain h | ⟨c, c', h, h'⟩ : _ ∨ _ := node_setDir f
  · rw [fileLength, h, fileLength]
  · rw [fileLength, h', fileLength, h]

theorem used_setDir (f : RamDir → RamDir) : (fs.setDir ino f).used = fs.used := by
  unfold setDir
  split <;> rfl

theorem limit_setDir (f : RamDir → RamDir) : (fs.setDir ino f).limit = fs.limit := by
  unfold setDir
  split <;> rfl

/-- The two states have the same files, and the counter says the same. -/
structure SameFiles (fs fs' : RamFs) : Prop where
  next : fs'.nextIno = fs.nextIno
  length : ∀ i, fs'.fileLength i = fs.fileLength i
  used : fs'.used = fs.used
  limit : fs'.limit = fs.limit

theorem SameFiles.total (h : SameFiles fs fs') : fs'.total = fs.total := by
  rw [RamFs.total, RamFs.total, h.next]
  exact Finset.sum_congr rfl fun i _ => h.length i

theorem SameFiles.setDir (f : RamDir → RamDir) : SameFiles fs (fs.setDir ino f) :=
  ⟨nextIno_setDir f, fun _ => fileLength_setDir f, used_setDir f, limit_setDir f⟩

theorem SameFiles.trans {fs'' : RamFs} (h : SameFiles fs fs') (h' : SameFiles fs' fs'') :
    SameFiles fs fs'' :=
  ⟨h'.next.trans h.next, fun i => (h'.length i).trans (h.length i), h'.used.trans h.used,
    h'.limit.trans h.limit⟩

theorem SameFiles.moveEntry (r : Rename) (source : ℕ) : SameFiles fs (fs.moveEntry r source) :=
  ((SameFiles.setDir _).trans (.setDir _)).trans (.setDir _)

/-- Changing one length changes the sum by as much. -/
theorem total_add (hnext : fs'.nextIno = fs.nextIno) (hino : ino < fs.nextIno)
    (hother : ∀ i, i ≠ ino → fs'.fileLength i = fs.fileLength i) :
    fs'.total + fs.fileLength ino = fs.total + fs'.fileLength ino := by
  have hmem := Finset.mem_range.mpr hino
  have hrest : ∑ i ∈ (Finset.range fs.nextIno).erase ino, fs'.fileLength i =
      ∑ i ∈ (Finset.range fs.nextIno).erase ino, fs.fileLength i :=
    Finset.sum_congr rfl fun i hi => hother i (Finset.ne_of_mem_erase hi)
  rw [total, total, hnext, ← Finset.add_sum_erase _ _ hmem, ← Finset.add_sum_erase _ _ hmem, hrest]
  omega

theorem fileLength_le_total (h : ino < fs.nextIno) : fs.fileLength ino ≤ fs.total :=
  Finset.single_le_sum (fun _ _ => Nat.zero_le _) (Finset.mem_range.mpr h)

/-! ## What the operations do -/

/-- `resize` makes the length the asked one and moves the counter by the difference. -/
theorem resize_ok {data data' : List UInt8} {newLength : ℕ} {room : Bool}
    (hdata : data.length ≤ fs.used) (hlimit : fs.used ≤ fs.limit)
    (h : fs.resize data newLength room = (.ok data', fs')) :
    data' = data.take newLength ++ List.replicate (newLength - data.length) 0 ∧
      ∃ used, fs' = { fs with used } ∧ used + data.length = fs.used + newLength ∧
        used ≤ fs.limit := by
  unfold resize at h
  dsimp only at h
  split at h
  · rename_i hgrow
    unfold reserve at h
    by_cases hreserve : fs.used + (newLength - data.length) < 2 ^ 64 ∧
        fs.used + (newLength - data.length) ≤ fs.limit
    · rw [if_pos hreserve] at h
      dsimp only at h
      split at h
      · exact absurd (Prod.mk.inj h).1 (by simp)
      · obtain ⟨hok, rfl⟩ := Prod.mk.inj h
        obtain rfl := Except.ok.inj hok
        refine ⟨by rw [List.take_of_length_le (by omega)], _, rfl, by omega, hreserve.2⟩
    · rw [if_neg hreserve] at h
      exact absurd (Prod.mk.inj h).1 (by simp)
  · obtain ⟨hok, rfl⟩ := Prod.mk.inj h
    obtain rfl := Except.ok.inj hok
    refine ⟨?_, _, rfl, by omega, by omega⟩
    rw [Nat.sub_eq_zero_of_le (by omega), List.replicate_zero, List.append_nil]

/-- Other data in a file, and the counter moved by the difference of the lengths. -/
def Rewritten (fs fs' : RamFs) (ino : ℕ) (data data' : List UInt8) : Prop :=
  fs.node ino = some (.file data) ∧
    ∃ used, fs' = { fs with used }.setData ino data' ∧ used + data.length = fs.used + data'.length ∧
      used ≤ fs.limit

theorem Rewritten.dir {data data' : List UInt8} (h : Rewritten fs fs' ino data data') :
    fs'.dir = fs.dir := by
  obtain ⟨hdata, used, rfl, -, -⟩ := h
  rw [setData, dir_setNode]
  have hold : fs.dir ino = none := by simp [RamFs.dir, hdata, Node.asDir]
  exact (congrArg (Function.update fs.dir ino) hold.symm).trans (Function.update_eq_self _ _)

theorem Rewritten.present {data data' : List UInt8} (h : Rewritten fs fs' ino data data') :
    fs'.present i ↔ fs.present i := by
  obtain ⟨hdata, used, rfl, -, -⟩ := h
  by_cases hi : i = ino
  · simp [RamFs.present, setData, setNode, hi, hdata]
  · simp [RamFs.present, setData, setNode, hi]

theorem truncate_ok {size : ℕ} {room : Bool} {answer : Unit}
    (hcovered : ∀ data, fs.node ino = some (.file data) → data.length ≤ fs.used)
    (hlimit : fs.used ≤ fs.limit) (h : fs.truncate ino size room = (.ok answer, fs')) :
    ∃ data, Rewritten fs fs' ino data
      (data.take size ++ List.replicate (size - data.length) 0) := by
  unfold truncate at h
  split at h
  · rename_i data hdata
    split at h
    · exact absurd (Prod.mk.inj h).1 (by simp)
    · split at h
      · exact absurd (Prod.mk.inj h).1 (by simp)
      · rename_i data' fs₁ hresize
        obtain rfl := (Prod.mk.inj h).2
        obtain ⟨rfl, used, rfl, hused, hle⟩ := resize_ok (hcovered data hdata) hlimit hresize
        refine ⟨data, hdata, used, rfl, ?_, hle⟩
        rw [hused, List.length_append, List.length_take, List.length_replicate]
        omega
  · exact absurd (Prod.mk.inj h).1 (by simp)

/-- The data after a write: zeros up to the offset if it is past the end. -/
def overwritten (data : List UInt8) (offset : ℕ) (buf : List UInt8) : List UInt8 :=
  data.take offset ++ List.replicate (offset - data.length) 0 ++ buf ++ data.drop (offset + buf.length)

theorem writeAt_ok {offset count : ℕ} {buf : List UInt8} {room : Bool}
    (hcovered : ∀ data, fs.node ino = some (.file data) → data.length ≤ fs.used)
    (hlimit : fs.used ≤ fs.limit) (h : fs.writeAt ino offset buf room = (.ok count, fs')) :
    ∃ data, Rewritten fs fs' ino data (overwritten data offset buf) := by
  unfold writeAt at h
  split at h
  · rename_i data hdata
    dsimp only at h
    split at h
    · exact absurd (Prod.mk.inj h).1 (by simp)
    · split at h
      · exact absurd (Prod.mk.inj h).1 (by simp)
      · rename_i data' fs₁ hgrown
        obtain rfl := (Prod.mk.inj h).2
        refine ⟨data, hdata, ?_⟩
        split at hgrown
        · rename_i hstop
          obtain ⟨rfl, used, rfl, hused, hle⟩ := resize_ok (hcovered data hdata) hlimit hgrown
          refine ⟨used, ?_, ?_, hle⟩
          · congr 1
            have hafter : data.drop (offset + buf.length) = [] := List.drop_eq_nil_of_le (by omega)
            have hlength : (data.take (offset + buf.length) ++
                List.replicate (offset + buf.length - data.length) 0).length ≤ offset + buf.length := by
              simp
              omega
            rw [overwritten, hafter, List.drop_eq_nil_of_le hlength,
              List.take_of_length_le (show data.length ≤ offset + buf.length by omega),
              List.take_append, List.take_replicate, Nat.min_eq_left (by omega)]
          · simp [overwritten]
            omega
        · rename_i hstop
          obtain ⟨hok, rfl⟩ := Prod.mk.inj hgrown
          obtain rfl := Except.ok.inj hok
          refine ⟨fs.used, ?_, ?_, hlimit⟩
          · rw [overwritten, Nat.sub_eq_zero_of_le (by omega), List.replicate_zero, List.append_nil]
          · simp [overwritten]
            omega
  · exact absurd (Prod.mk.inj h).1 (by simp)

/-- A new inode has no bytes. -/
theorem create_lengths {kind : InodeKind} {child : ℕ} (hnone : fs.node fs.nextIno = none)
    (h : fs.create ino name kind = .ok (child, fs')) :
    (∀ i, fs'.fileLength i = fs.fileLength i) ∧ fs'.used = fs.used ∧ fs'.limit = fs.limit := by
  unfold create at h
  split_ifs at h
  split at h
  · contradiction
  · rename_i node hnode
    obtain ⟨-, rfl⟩ := Prod.mk.inj (Except.ok.inj h)
    refine ⟨fun i => ?_, used_setDir _, limit_setDir _⟩
    rw [mapEntries, fileLength_setDir]
    by_cases hi : i = fs.nextIno
    · subst hi
      rw [fileLength_of_absent hnone]
      cases kind with
      | file =>
        obtain rfl := Except.ok.inj hnode
        simp [fileLength, setNode]
      | directory =>
        obtain rfl := Except.ok.inj hnode
        simp [fileLength, setNode]
      | charDevice => contradiction
    · simp [fileLength, setNode, hi]

theorem unlink_ok (h : fs.unlink ino name = .ok fs') :
    ∃ child, fs.entry ino name = some child ∧ fs.isDir child = false ∧
      fs' = fs.mapEntries ino (·.erase name) := by
  unfold unlink at h
  split at h
  · contradiction
  · rename_i child hchild
    split at h
    · contradiction
    · rename_i hfile
      exact ⟨child, hchild, eq_false_of_ne_true hfile, (Except.ok.inj h).symm⟩

theorem rmdir_ok (h : fs.rmdir ino name = .ok fs') :
    ∃ child, fs.entry ino name = some child ∧ fs.isDir child = true ∧
      (∀ n, fs.entry child n = none) ∧ fs' = (fs.markDead child).mapEntries ino (·.erase name) := by
  unfold rmdir rmdirChild at h
  split at h
  · contradiction
  · rename_i child hchild
    by_cases hdir : fs.isDir child = true
    · simp only [if_pos hdir, bind, Except.bind, rmdirLocked] at h
      split at h
      · rename_i hempty
        exact ⟨child, hchild, hdir, (Entries.isEmpty_iff_forall _).mp hempty, (Except.ok.inj h).symm⟩
      · contradiction
    · simp only [if_neg hdir, bind, Except.bind] at h
      contradiction

/-- What a `rename` that changes something does: it moves an entry, over a file or over an empty
directory that dies. -/
inductive Renamed (fs : RamFs) (r : Rename) (source : ℕ) : RamFs → Prop
  | plain (h : ∀ existing, fs.entry r.target r.new = some existing → fs.isDir existing = false) :
    Renamed fs r source (fs.moveEntry r source)
  | replacing {existing : ℕ} (hentry : fs.entry r.target r.new = some existing)
    (hdir : fs.isDir existing = true) (hempty : ∀ n, fs.entry existing n = none) :
    Renamed fs r source ((fs.markDead existing).moveEntry r source)

theorem renameSource_ok {r : Rename} {source : ℕ} {replaced : Option ℕ}
    (h : fs.renameSource r = .ok (source, replaced)) :
    fs.entry r.self r.old = some source ∧
      ((replaced = none ∧
          ∀ existing, fs.entry r.target r.new = some existing → fs.isDir existing = false) ∨
        ∃ existing, replaced = some existing ∧ fs.entry r.target r.new = some existing ∧
          fs.isDir existing = true) := by
  unfold renameSource at h
  split at h
  · contradiction
  · rename_i source' hsource
    split at h
    · rename_i hfree
      obtain ⟨rfl, rfl⟩ := Prod.mk.inj (Except.ok.inj h)
      refine ⟨hsource, .inl ⟨rfl, fun existing hentry => ?_⟩⟩
      exact absurd (hfree.symm.trans hentry) (by simp)
    · rename_i existing hexisting
      split at h
      · rename_i hdir
        split at h
        · contradiction
        · obtain ⟨rfl, rfl⟩ := Prod.mk.inj (Except.ok.inj h)
          exact ⟨hsource, .inr ⟨existing, rfl, hexisting, hdir⟩⟩
      · contradiction
      · contradiction
      · rename_i hfile
        obtain ⟨rfl, rfl⟩ := Prod.mk.inj (Except.ok.inj h)
        refine ⟨hsource, .inl ⟨rfl, fun existing' hentry => ?_⟩⟩
        obtain rfl := Option.some.inj (hexisting.symm.trans hentry)
        exact hfile

theorem renameEnd_ok {r : Rename} (h : (match fs.renameSource r with
      | .error e => pure (.error e)
      | .ok (source, replaced) => pure (fs.renameLocked r source replaced)) =
        some (Except.ok fs')) :
    ∃ source, fs.entry r.self r.old = some source ∧ Renamed fs r source fs' := by
  split at h
  · exact absurd (Option.some.inj h) (by simp)
  · rename_i source replaced hsource
    have hlocked := Option.some.inj h
    obtain ⟨hentry, ⟨rfl, hfree⟩ | ⟨existing, rfl, hexisting, hdir⟩⟩ := renameSource_ok hsource
    · obtain rfl := Except.ok.inj hlocked
      exact ⟨source, hentry, .plain hfree⟩
    · rw [renameLocked] at hlocked
      split at hlocked
      · rename_i hempty
        obtain rfl := Except.ok.inj hlocked
        exact ⟨source, hentry, .replacing hexisting hdir ((Entries.isEmpty_iff_forall _).mp hempty)⟩
      · contradiction

/-- A walk that ends without meeting the directory is not within it. -/
theorem not_within_of_isWithin {fuel ancestor : ℕ} (h : fs.isWithin fuel ino ancestor = some false) :
    ¬ Forest.Within fs.up ino ancestor := by
  induction fuel generalizing ino with
  | zero => contradiction
  | succ fuel ih =>
    rw [isWithin] at h
    split at h
    · exact absurd (Option.some.inj h) (by simp)
    · rename_i hne
      intro hwithin
      obtain ⟨parent, hup, hrest⟩ := hwithin.up_of_ne hne
      rw [hup] at h
      exact ih h hrest

theorem rename_ok {r : Rename} (h : fs.rename r = some (.ok fs')) :
    (r.self = r.target ∧ r.old = r.new) ∧ fs' = fs ∨
      ¬ (r.self = r.target ∧ r.old = r.new) ∧ fs.isDead r.target = false ∧
      ∃ source, fs.entry r.self r.old = some source ∧
        (fs.isDir source = true → ¬ Forest.Within fs.up r.target source) ∧ Renamed fs r source fs' := by
  unfold rename at h
  split at h
  · -- nothing moves
    rename_i hsame
    cases hlookup : fs.lookup r.self r.old with
    | error e =>
      rw [hlookup] at h
      cases Option.some.inj h
    | ok child =>
      rw [hlookup] at h
      exact .inl ⟨hsame, (Except.ok.inj (Option.some.inj h)).symm⟩
  · rename_i hsame
    split at h
    · exact absurd (Option.some.inj h) (by simp)
    · rename_i halive
      refine .inr ⟨hsame, eq_false_of_ne_true halive, ?_⟩
      split at h
      · exact absurd (Option.some.inj h) (by simp)
      · rename_i moved hmoved
        have hmoved := entry_of_lookup hmoved
        -- whatever the other walks say, the end is the same
        suffices hend : (fs.isDir moved = true → fs.isWithin fs.depth r.target moved = some false) ∧
            (match fs.renameSource r with
            | .error e => pure (.error e)
            | .ok (source, replaced) => pure (fs.renameLocked r source replaced)) =
              some (Except.ok fs') by
          obtain ⟨source, hsource, hrenamed⟩ := renameEnd_ok hend.2
          obtain rfl := Option.some.inj (hmoved.symm.trans hsource)
          exact ⟨_, hsource, fun hdir => not_within_of_isWithin (hend.1 hdir), hrenamed⟩
        have hinside : ∃ inside : Bool,
            (fs.isDir moved = true → fs.isWithin fs.depth r.target moved = some inside) ∧
            (if inside = true then pure (.error .EINVAL) else do
            let below ← fs.isWithin fs.depth r.target r.self
            let _ ← if below then some true else fs.isWithin fs.depth r.self r.target
            match fs.renameSource r with
            | .error e => pure (.error e)
            | .ok (source, replaced) => pure (fs.renameLocked r source replaced)) =
              some (Except.ok fs') := by
          dsimp only at h
          split at h
          · obtain ⟨inside, hwalk, h⟩ := Option.bind_eq_some_iff.mp h
            exact ⟨inside, fun _ => hwalk, h⟩
          · rename_i hfile
            exact ⟨false, fun hdir => absurd hdir hfile, h⟩
        obtain ⟨inside, hwalk, h⟩ := hinside
        split at h
        · exact absurd (Option.some.inj h) (by simp)
        · rename_i hout
          rw [eq_false_of_ne_true hout] at hwalk
          refine ⟨hwalk, ?_⟩
          obtain ⟨below, -, h⟩ := Option.bind_eq_some_iff.mp h
          by_cases hbelow : below = true
          · simp only [if_pos hbelow] at h
            exact h
          · simp only [if_neg hbelow] at h
            obtain ⟨above, -, h⟩ := Option.bind_eq_some_iff.mp h
            exact h

end RamFs

namespace Space

variable {s s' : Space} {limit : ℕ} {lost : Option ℕ}

/-! ## The invariant -/

/-- A directory lists the inode. -/
def Linked (fs : RamFs) (ino : ℕ) : Prop :=
  ∃ d n, fs.entry d n = some ino

/-- The invariant, up to the inode that has lost a reference. -/
structure Inv (s : Space) (limit : ℕ) (lost : Option ℕ) : Prop where
  root : s.fs.isDir RamFs.rootIno = true
  below : ∀ i, s.fs.present i → i < s.fs.nextIno
  listed : ∀ d n i, s.fs.entry d n = some i → s.fs.present i
  held : ∀ i, 0 < s.held i → s.fs.present i
  live : ∀ i, s.fs.present i → lost ≠ some i → i = RamFs.rootIno ∨ 0 < s.held i ∨ Linked s.fs i
  dead : ∀ d, s.fs.isDead d = true → ∀ n, s.fs.entry d n = none
  linked : ∀ d, s.fs.isDir d = true → s.fs.isDead d = false → d = RamFs.rootIno ∨ Linked s.fs d
  used : s.fs.used = s.fs.total
  limit_eq : s.fs.limit = limit
  used_le : s.fs.used ≤ limit

theorem linked_iff (h : s.Inv limit lost) {ino : ℕ} : s.fs.linked ino = true ↔ Linked s.fs ino := by
  simp only [RamFs.linked, List.any_eq_true, List.mem_range, beq_iff_eq]
  constructor
  · rintro ⟨d, -, ⟨name, i⟩, hmem, rfl⟩
    exact ⟨d, name, Std.ExtTreeMap.mem_toList_iff_getElem?_eq_some.mp hmem⟩
  · rintro ⟨d, name, hentry⟩
    exact ⟨d, h.below d (RamFs.present_of_isDir (RamFs.isDir_of_entry hentry)), (name, ino),
      Std.ExtTreeMap.mem_toList_iff_getElem?_eq_some.mpr hentry, rfl⟩

theorem live_iff (h : s.Inv limit lost) {ino : ℕ} :
    s.live ino = true ↔ ino = RamFs.rootIno ∨ 0 < s.held ino ∨ Linked s.fs ino := by
  simp only [live, Bool.or_eq_true, beq_iff_eq, decide_eq_true_eq, linked_iff h, or_assoc]

namespace Inv

/-- The bytes of a file are counted. -/
theorem covered (h : s.Inv limit lost) {ino : ℕ} {data : List UInt8}
    (hdata : s.fs.node ino = some (.file data)) : data.length ≤ s.fs.used := by
  have hpresent : s.fs.present ino := by simp [RamFs.present, hdata]
  rw [h.used, ← RamFs.fileLength_of_file hdata]
  exact RamFs.fileLength_le_total (h.below ino hpresent)

theorem mount (limit : ℕ) : (mount limit).Inv limit none := by
  have htree := RamFs.treeOk_withLimit limit
  have hnode : ∀ i, i ≠ RamFs.rootIno → (RamFs.withLimit limit).node i = none := by
    intro i hi
    simp [RamFs.withLimit, hi]
  have hroot : ∀ i, (RamFs.withLimit limit).present i → i = RamFs.rootIno := by
    intro i hi
    by_contra hne
    rw [RamFs.present, hnode i hne] at hi
    contradiction
  have hempty : ∀ d n, (RamFs.withLimit limit).entry d n = none := by
    intro d n
    by_contra hsome
    obtain ⟨i, hi⟩ := Option.ne_none_iff_exists'.mp hsome
    obtain ⟨hne, hpresent⟩ := htree.listed d n i hi
    exact hne (hroot i hpresent)
  refine ⟨htree.root_dir, htree.lt_next, fun d n i hi => (htree.listed d n i hi).2,
    fun i hi => absurd hi (lt_irrefl 0), fun i hi _ => .inl (hroot i hi), fun d _ n => hempty d n,
    fun d hd _ => .inl (hroot d (RamFs.present_of_isDir hd)), ?_, rfl, Nat.zero_le _⟩
  have hlength : ∀ i, (RamFs.withLimit limit).fileLength i = 0 := by
    intro i
    by_cases hi : i = RamFs.rootIno
    · subst hi
      simp [RamFs.fileLength, RamFs.withLimit]
    · exact RamFs.fileLength_of_absent (hnode i hi)
  exact (Finset.sum_eq_zero fun i _ => hlength i).symm

/-- A directory that nothing refers to lists nothing. -/
theorem ne_of_entry (h : s.Inv limit lost) {ino d i : ℕ} {n : Name} (hroot : ino ≠ RamFs.rootIno)
    (hunlinked : ¬ Linked s.fs ino) (hentry : s.fs.entry d n = some i) : d ≠ ino := by
  rintro rfl
  cases hdead : s.fs.isDead d with
  | true => exact absurd ((h.dead d hdead n).symm.trans hentry) (by simp)
  | false =>
    obtain heq | hlinked := h.linked d (RamFs.isDir_of_entry hentry) hdead
    · exact hroot heq
    · exact hunlinked hlinked

theorem isDead_drop {fs : RamFs} {ino d : ℕ} (h : (fs.drop ino).isDead d = true) :
    fs.isDead d = true ∧ d ≠ ino := by
  rw [RamFs.isDead, RamFs.drop_dir] at h
  by_cases hd : d = ino
  · subst hd
    rw [Function.update_self] at h
    contradiction
  · rw [Function.update_of_ne hd] at h
    exact ⟨h, hd⟩

theorem drop_used {fs : RamFs} (h : fs.used = fs.total) {ino : ℕ} (hino : ino < fs.nextIno) :
    (fs.drop ino).used = (fs.drop ino).total ∧ (fs.drop ino).used ≤ fs.used ∧
      (fs.drop ino).limit = fs.limit := by
  have hnode : (fs.drop ino).node = Function.update fs.node ino none := by
    unfold RamFs.drop
    split <;> rfl
  have hdropped : (fs.drop ino).fileLength ino = 0 :=
    RamFs.fileLength_of_absent (by rw [hnode, Function.update_self])
  have hother : ∀ i, i ≠ ino → (fs.drop ino).fileLength i = fs.fileLength i := by
    intro i hi
    rw [RamFs.fileLength, hnode, Function.update_of_ne hi, RamFs.fileLength]
  have hsum := RamFs.total_add RamFs.nextIno_drop hino hother
  have hused : (fs.drop ino).used = fs.used - fs.fileLength ino ∧ (fs.drop ino).limit = fs.limit := by
    unfold RamFs.drop RamFs.fileLength
    cases fs.node ino with
    | none => exact ⟨rfl, rfl⟩
    | some node => cases node <;> exact ⟨rfl, rfl⟩
  omega

/-- Dropping what has lost its last reference. -/
theorem settle (h : s.Inv limit lost) (hlost : ∀ ino, lost = some ino → s.fs.present ino) :
    (s.settle lost).Inv limit none := by
  cases lost with
  | none => exact h
  | some ino =>
    rw [Space.settle]
    split
    · rename_i hlive
      refine { h with live := fun i hi _ => ?_ }
      by_cases hi' : i = ino
      · exact hi' ▸ (live_iff h).mp hlive
      · exact h.live i hi fun heq => hi' (Option.some.inj heq).symm
    · rename_i hgone
      rw [live_iff h, not_or, not_or] at hgone
      obtain ⟨hroot, hheld, hunlinked⟩ := hgone
      have hentry : ∀ d n i, s.fs.entry d n = some i → (s.fs.drop ino).entry d n = some i :=
        fun d n i hi => RamFs.entry_drop.mpr ⟨hi, h.ne_of_entry hroot hunlinked hi⟩
      obtain ⟨hused, hle, hlimit⟩ := drop_used h.used (h.below ino (hlost ino rfl))
      refine ⟨RamFs.isDir_drop.mpr ⟨h.root, Ne.symm hroot⟩, fun i hi => ?_, fun d n i hi => ?_,
        fun i hi => ?_, fun i hi _ => ?_, fun d hd n => ?_, fun d hd halive => ?_, hused,
        hlimit.trans h.limit_eq, hle.trans h.used_le⟩
      · rw [RamFs.nextIno_drop]
        exact h.below i (RamFs.present_drop.mp hi).1
      · have hold := (RamFs.entry_drop.mp hi).1
        refine RamFs.present_drop.mpr ⟨h.listed d n i hold, ?_⟩
        rintro rfl
        exact hunlinked ⟨d, n, hold⟩
      · refine RamFs.present_drop.mpr ⟨h.held i hi, ?_⟩
        rintro rfl
        exact hheld hi
      · obtain ⟨hpresent, hne⟩ := RamFs.present_drop.mp hi
        obtain hi | hi | ⟨d, n, hi⟩ := h.live i hpresent fun heq => hne (Option.some.inj heq).symm
        · exact .inl hi
        · exact .inr (.inl hi)
        · exact .inr (.inr ⟨d, n, hentry d n i hi⟩)
      · by_contra hsome
        obtain ⟨i, hi⟩ := Option.ne_none_iff_exists'.mp hsome
        exact absurd ((h.dead d (isDead_drop hd).1 n).symm.trans (RamFs.entry_drop.mp hi).1) (by simp)
      · obtain ⟨hdir, hne⟩ := RamFs.isDir_drop.mp hd
        have halive' : s.fs.isDead d = false := by
          rw [← halive, RamFs.isDead, RamFs.isDead, RamFs.drop_dir, Function.update_of_ne hne]
        obtain heq | ⟨p, n, hp⟩ := h.linked d hdir halive'
        · exact .inl heq
        · exact .inr ⟨p, n, hentry p n d hp⟩

/-! ## One operation -/

/-- What an operation does before the last reference goes. -/
inductive Effect (s : Space) : Space → Option ℕ → Prop
  | nothing : Effect s s none
  | hold {ino : ℕ} (h : s.fs.present ino) : Effect s (s.hold ino) none
  | release {ino : ℕ} (h : 0 < s.held ino) :
    Effect s { s with held := Function.update s.held ino (s.held ino - 1) } (some ino)
  | create {dir child : ℕ} {name : Name} {kind : InodeKind} {fs : RamFs}
    (hdir : s.fs.isDir dir = true) (h : s.fs.create dir name kind = .ok (child, fs)) :
    Effect s ({ s with fs }.hold child) none
  | rewrite {fs : RamFs} {ino : ℕ} {data data' : List UInt8}
    (h : RamFs.Rewritten s.fs fs ino data data') : Effect s { s with fs } none
  | unlink {dir : ℕ} {name : Name} {fs : RamFs} (hdir : s.fs.isDir dir = true)
    (h : s.fs.unlink dir name = .ok fs) : Effect s { s with fs } (s.fs.entry dir name)
  | rmdir {dir : ℕ} {name : Name} {fs : RamFs} (hdir : s.fs.isDir dir = true)
    (h : s.fs.rmdir dir name = .ok fs) : Effect s { s with fs } (s.fs.entry dir name)
  | rename {r : Rename} {fs : RamFs} (hself : s.fs.isDir r.self = true)
    (htarget : s.fs.isDir r.target = true) (h : s.fs.rename r = some (.ok fs)) :
    Effect s { s with fs } (s.fs.entry r.target r.new)

/-- A call has one of these effects; a call that fails has none. -/
theorem effect_of_apply (h : s.Inv limit none) {op : Op} {answer : Except Errno Unit}
    (happly : s.apply op = some (answer, s', lost)) : Effect s s' lost := by
  cases op with
  | acquire dir name =>
    simp only [Space.apply] at happly
    split_ifs at happly with hdir
    cases hlookup : s.fs.lookup dir name with
    | error e =>
      rw [hlookup] at happly
      obtain ⟨rfl, rfl, rfl⟩ := happly
      exact .nothing
    | ok ino =>
      rw [hlookup] at happly
      obtain ⟨rfl, rfl, rfl⟩ := happly
      exact .hold (h.listed dir name ino (RamFs.entry_of_lookup hlookup))
  | retain ino =>
    simp only [Space.apply] at happly
    split_ifs at happly with hheld
    obtain ⟨rfl, rfl, rfl⟩ := happly
    exact .hold (h.held ino hheld)
  | release ino =>
    simp only [Space.apply] at happly
    split_ifs at happly with hheld
    obtain ⟨rfl, rfl, rfl⟩ := happly
    exact .release hheld
  | create dir name kind =>
    simp only [Space.apply] at happly
    split_ifs at happly with hdir
    split at happly
    · obtain ⟨rfl, rfl, rfl⟩ := happly
      exact .nothing
    · split at happly
      · obtain ⟨rfl, rfl, rfl⟩ := happly
        exact .nothing
      · rename_i ino fs hcreate
        obtain ⟨rfl, rfl, rfl⟩ := happly
        exact .create hdir hcreate
  | writeAt ino offset buf room =>
    simp only [Space.apply] at happly
    cases hwrite : s.fs.writeAt ino offset buf room with
    | mk answer fs =>
      rw [hwrite] at happly
      obtain ⟨-, rfl, rfl⟩ := happly
      cases answer with
      | error e =>
        obtain rfl := RamFs.writeAt_error hwrite
        exact .nothing
      | ok count =>
        obtain ⟨data, hw⟩ := RamFs.writeAt_ok (fun data hdata => h.covered hdata)
          (h.limit_eq ▸ h.used_le) hwrite
        exact .rewrite hw
  | truncate ino size room =>
    simp only [Space.apply] at happly
    cases htruncate : s.fs.truncate ino size room with
    | mk answer fs =>
      rw [htruncate] at happly
      obtain ⟨-, rfl, rfl⟩ := happly
      cases answer with
      | error e =>
        obtain rfl := RamFs.truncate_error htruncate
        exact .nothing
      | ok answer =>
        obtain ⟨data, hw⟩ := RamFs.truncate_ok (fun data hdata => h.covered hdata)
          (h.limit_eq ▸ h.used_le) htruncate
        exact .rewrite hw
  | unlink dir name =>
    simp only [Space.apply] at happly
    split_ifs at happly with hdir
    split at happly
    · obtain ⟨rfl, rfl, rfl⟩ := happly
      exact .nothing
    · rename_i fs hunlink
      obtain ⟨rfl, rfl, rfl⟩ := happly
      exact .unlink hdir hunlink
  | rmdir dir name =>
    simp only [Space.apply] at happly
    split_ifs at happly with hdir
    split at happly
    · obtain ⟨rfl, rfl, rfl⟩ := happly
      exact .nothing
    · rename_i fs hrmdir
      obtain ⟨rfl, rfl, rfl⟩ := happly
      exact .rmdir hdir hrmdir
  | rename r =>
    simp only [Space.apply] at happly
    split_ifs at happly with hdirs
    split at happly
    · obtain ⟨rfl, rfl, rfl⟩ := happly
      exact .nothing
    · obtain ⟨renamed, hrename, happly⟩ := Option.bind_eq_some_iff.mp happly
      cases renamed with
      | error e =>
        obtain ⟨rfl, rfl, rfl⟩ := happly
        exact .nothing
      | ok fs =>
        obtain ⟨rfl, rfl, rfl⟩ := happly
        exact .rename hdirs.1 hdirs.2 hrename

theorem hold (h : s.Inv limit none) {ino : ℕ} (hino : s.fs.present ino) :
    (s.hold ino).Inv limit none := by
  have hheld : ∀ i, 0 < (s.hold ino).held i ↔ i = ino ∨ 0 < s.held i := by
    intro i
    by_cases hi : i = ino
    · simp [Space.hold, hi]
    · simp [Space.hold, hi]
  refine { h with held := fun i hi => ?_, live := fun i hi _ => ?_ }
  · obtain rfl | hi := (hheld i).mp hi
    · exact hino
    · exact h.held i hi
  · rw [hheld]
    have := h.live i hi (by simp)
    tauto

theorem release (h : s.Inv limit none) (ino : ℕ) :
    Inv { s with held := Function.update s.held ino (s.held ino - 1) } limit (some ino) := by
  have hother : ∀ i, i ≠ ino → Function.update s.held ino (s.held ino - 1) i = s.held i :=
    fun i hi => Function.update_of_ne hi _ _
  have hself : Function.update s.held ino (s.held ino - 1) ino = s.held ino - 1 :=
    Function.update_self _ _ _
  refine { h with held := fun i hi => ?_, live := fun i hi hne => ?_ }
  · by_cases heq : i = ino
    · subst heq
      exact h.held i (by dsimp only at hi; omega)
    · exact h.held i (hother i heq ▸ hi)
  · dsimp only
    rw [hother i fun heq => hne (congrArg some heq.symm)]
    exact h.live i hi (by simp)

/-- Other data in a file. -/
theorem rewritten (h : s.Inv limit none) {fs : RamFs} {ino : ℕ} {data data' : List UInt8}
    (hw : RamFs.Rewritten s.fs fs ino data data') : Inv { s with fs } limit none := by
  have hdir := hw.dir
  have hpresent : ∀ i, fs.present i ↔ s.fs.present i := fun i => hw.present
  obtain ⟨hdata, used, rfl, hused, hle⟩ := hw
  have hentry : ∀ d n, ({ s.fs with used }.setData ino data').entry d n = s.fs.entry d n := by
    intro d n
    rw [RamFs.entry, RamFs.entries, hdir, RamFs.entry, RamFs.entries]
  have hlinked : ∀ i, Linked ({ s.fs with used }.setData ino data') i ↔ Linked s.fs i := by
    intro i
    simp only [Linked, hentry]
  have hisDir : ∀ d, ({ s.fs with used }.setData ino data').isDir d = s.fs.isDir d := by
    intro d
    rw [RamFs.isDir, hdir, RamFs.isDir]
  have hisDead : ∀ d, ({ s.fs with used }.setData ino data').isDead d = s.fs.isDead d := by
    intro d
    rw [RamFs.isDead, hdir, RamFs.isDead]
  have hino : ino < s.fs.nextIno := h.below ino (by simp [RamFs.present, hdata])
  -- the sum moves with the counter
  have htotal : ({ s.fs with used }.setData ino data').total = used := by
    have hother : ∀ i, i ≠ ino →
        ({ s.fs with used }.setData ino data').fileLength i = s.fs.fileLength i := by
      intro i hi
      simp [RamFs.fileLength, RamFs.setData, RamFs.setNode, hi]
    have hsum := RamFs.total_add (by rfl) hino hother
    have hnew : ({ s.fs with used }.setData ino data').fileLength ino = data'.length :=
      RamFs.fileLength_of_file (Function.update_self _ _ _)
    rw [hnew, RamFs.fileLength_of_file hdata, ← h.used] at hsum
    omega
  refine ⟨(hisDir _).trans h.root, fun i hi => h.below i ((hpresent i).mp hi), fun d n i hi => ?_,
    fun i hi => (hpresent i).mpr (h.held i hi), fun i hi _ => ?_, fun d hd n => ?_,
    fun d hd halive => ?_, htotal.symm, h.limit_eq, hle.trans h.limit_eq.le⟩
  · exact (hpresent i).mpr (h.listed d n i ((hentry d n).symm.trans hi))
  · rw [hlinked]
    exact h.live i ((hpresent i).mp hi) (by simp)
  · rw [hentry]
    exact h.dead d ((hisDead d).symm.trans hd) n
  · rw [hlinked]
    exact h.linked d ((hisDir d).symm.trans hd) ((hisDead d).symm.trans halive)

theorem create (h : s.Inv limit none) {dir child : ℕ} {name : Name} {kind : InodeKind} {fs : RamFs}
    (hdir : s.fs.isDir dir = true) (hcreate : s.fs.create dir name kind = .ok (child, fs)) :
    Inv { s with fs } limit none ∧ fs.present child := by
  have hnone : s.fs.node s.fs.nextIno = none := by
    by_contra hsome
    exact absurd (h.below _ (Option.isSome_iff_ne_none.mpr hsome)) (lt_irrefl _)
  obtain ⟨rfl, hc⟩ := RamFs.created_of_fresh hnone hdir hcreate
  obtain ⟨hlength, hused, hlimit⟩ := RamFs.create_lengths hnone hcreate
  have hkept : ∀ i, Linked s.fs i → Linked fs i := by
    rintro i ⟨d, n, hi⟩
    refine ⟨d, n, (hc.entry d n).trans ?_⟩
    rw [if_neg, hi]
    rintro ⟨rfl, rfl⟩
    exact absurd (hc.free.symm.trans hi) (by simp)
  have hnew : Linked fs s.fs.nextIno := ⟨dir, name, (hc.entry dir name).trans (if_pos ⟨rfl, rfl⟩)⟩
  refine ⟨⟨?_, fun i hi => ?_, fun d n i hi => ?_, fun i hi => (hc.present i).mpr (.inr (h.held i hi)),
    fun i hi _ => ?_, fun d hd n => ?_, fun d hd halive => ?_, ?_, hlimit.trans h.limit_eq,
    hused.trans_le h.used_le⟩, (hc.present _).mpr (.inl rfl)⟩
  · exact (hc.isDir _ (h.below _ (RamFs.present_of_isDir h.root)).ne).trans h.root
  · show i < fs.nextIno
    rw [hc.next]
    obtain rfl | hi := (hc.present i).mp hi
    · exact Nat.lt_succ_self _
    · exact (h.below i hi).trans (Nat.lt_succ_self _)
  · have hi' := (hc.entry d n).symm.trans hi
    split at hi'
    · exact (hc.present i).mpr (.inl (Option.some.inj hi').symm)
    · exact (hc.present i).mpr (.inr (h.listed d n i hi'))
  · obtain rfl | hi := (hc.present i).mp hi
    · exact .inr (.inr hnew)
    · obtain hi | hi | hi := h.live i hi (by simp)
      · exact .inl hi
      · exact .inr (.inl hi)
      · exact .inr (.inr (hkept i hi))
  · -- nothing is created in a dead directory
    have hdead := (hc.isDead d).symm.trans hd
    refine (hc.entry d n).trans ?_
    rw [if_neg, h.dead d hdead n]
    rintro ⟨rfl, -⟩
    exact Bool.false_ne_true (hc.alive.symm.trans hdead)
  · by_cases hd' : d = s.fs.nextIno
    · exact .inr (hd' ▸ hnew)
    · obtain heq | hlinked := h.linked d ((hc.isDir d hd').symm.trans hd)
        ((hc.isDead d).symm.trans halive)
      · exact .inl heq
      · exact .inr (hkept d hlinked)
  · show fs.used = fs.total
    rw [hused, h.used, RamFs.total, RamFs.total, hc.next, Finset.sum_range_succ, hlength,
      RamFs.fileLength_of_absent hnone, add_zero]
    exact Finset.sum_congr rfl fun i _ => (hlength i).symm

/-- An operation on directories that keeps the files. The directories that it marks dead are empty, and
what is not linked any more is the lost inode, which is no living directory. -/
theorem relinked (h : s.Inv limit none) {fs : RamFs} (hfiles : RamFs.SameFiles s.fs fs)
    (hisDir : ∀ d, fs.isDir d = s.fs.isDir d) (hpresent : ∀ i, fs.present i ↔ s.fs.present i)
    (hlisted : ∀ d n i, fs.entry d n = some i → s.fs.present i)
    (hlinked : ∀ i, Linked s.fs i → lost ≠ some i → Linked fs i)
    (hdead : ∀ d, fs.isDead d = true → ∀ n, fs.entry d n = none)
    (halive : ∀ d, fs.isDead d = false → s.fs.isDead d = false)
    (hgone : ∀ d, lost = some d → s.fs.isDir d = true → fs.isDead d = true) :
    Inv { s with fs } limit lost := by
  refine ⟨(hisDir _).trans h.root, fun i hi => ?_, fun d n i hi => ?_,
    fun i hi => (hpresent i).mpr (h.held i hi), fun i hi hne => ?_, hdead, fun d hd hd' => ?_, ?_,
    hfiles.limit.trans h.limit_eq, hfiles.used.trans_le h.used_le⟩
  · exact (h.below i ((hpresent i).mp hi)).trans_eq hfiles.next.symm
  · exact (hpresent i).mpr (hlisted d n i hi)
  · obtain hi | hi | hi := h.live i ((hpresent i).mp hi) (by simp)
    · exact .inl hi
    · exact .inr (.inl hi)
    · exact .inr (.inr (hlinked i hi hne))
  · have hdir := (hisDir d).symm.trans hd
    obtain heq | hl := h.linked d hdir (halive d hd')
    · exact .inl heq
    · refine .inr (hlinked d hl fun hlost => ?_)
      exact Bool.false_ne_true (hd'.symm.trans (hgone d hlost hdir))
  · exact hfiles.used.trans (h.used.trans hfiles.total.symm)

theorem unlink (h : s.Inv limit none) {dir : ℕ} {name : Name} {fs : RamFs}
    (hdir : s.fs.isDir dir = true) (hunlink : s.fs.unlink dir name = .ok fs) :
    Inv { s with fs } limit (s.fs.entry dir name) := by
  obtain ⟨child, hchild, hfile, rfl⟩ := RamFs.unlink_ok hunlink
  rw [hchild]
  refine h.relinked (.setDir _) (fun d => by simp) (fun i => by simp) (fun d n i hi => ?_)
    (fun i hi hne => ?_) (fun d hd n => ?_) (fun d hd => by simpa using hd) (fun d hlost hd => ?_)
  · rw [RamFs.entry_erase hdir] at hi
    split at hi
    · contradiction
    · exact h.listed d n i hi
  · obtain ⟨d, n, hi⟩ := hi
    refine ⟨d, n, ?_⟩
    rw [RamFs.entry_erase hdir, if_neg, hi]
    rintro ⟨rfl, rfl⟩
    exact hne (hchild.symm.trans hi)
  · rw [RamFs.isDead_mapEntries] at hd
    rw [RamFs.entry_erase hdir, h.dead d hd n, ite_self]
  · obtain rfl := Option.some.inj hlost
    exact absurd (hfile.symm.trans hd) Bool.false_ne_true

theorem rmdir (h : s.Inv limit none) {dir : ℕ} {name : Name} {fs : RamFs}
    (hdir : s.fs.isDir dir = true) (hrmdir : s.fs.rmdir dir name = .ok fs) :
    Inv { s with fs } limit (s.fs.entry dir name) := by
  obtain ⟨child, hchild, hisDir, hempty, rfl⟩ := RamFs.rmdir_ok hrmdir
  have hdir' : (s.fs.markDead child).isDir dir = true := by rwa [RamFs.isDir_markDead]
  have hisDead : ∀ d, ((s.fs.markDead child).mapEntries dir (·.erase name)).isDead d =
      if d = child then true else s.fs.isDead d := by
    intro d
    rw [RamFs.isDead_mapEntries, RamFs.isDead_markDead hisDir, Function.update_apply]
  rw [hchild]
  refine h.relinked ((RamFs.SameFiles.setDir _).trans (.setDir _)) (fun d => by simp)
    (fun i => by simp) (fun d n i hi => ?_) (fun i hi hne => ?_) (fun d hd n => ?_) (fun d hd => ?_)
    (fun d hlost _ => ?_)
  · rw [RamFs.entry_erase hdir', RamFs.entry_markDead] at hi
    split at hi
    · contradiction
    · exact h.listed d n i hi
  · obtain ⟨d, n, hi⟩ := hi
    refine ⟨d, n, ?_⟩
    rw [RamFs.entry_erase hdir', RamFs.entry_markDead, if_neg, hi]
    rintro ⟨rfl, rfl⟩
    exact hne (hchild.symm.trans hi)
  · rw [RamFs.entry_erase hdir', RamFs.entry_markDead]
    rw [hisDead] at hd
    split at hd
    · rename_i heq
      rw [heq, hempty n, ite_self]
    · rw [h.dead d hd n, ite_self]
  · rw [hisDead] at hd
    split at hd
    · contradiction
    · exact hd
  · rw [hisDead, if_pos (Option.some.inj hlost).symm]

/-- Moving an entry in a state whose dead directories are those of `s` and the replaced one. -/
theorem moved (h : s.Inv limit none) {fs : RamFs} {r : Rename} {source : ℕ}
    (hfiles : RamFs.SameFiles s.fs fs) (hisDir : ∀ d, fs.isDir d = s.fs.isDir d)
    (hpresent : ∀ i, fs.present i ↔ s.fs.present i) (hentry : ∀ d n, fs.entry d n = s.fs.entry d n)
    (hself : s.fs.isDir r.self = true) (htarget : s.fs.isDir r.target = true)
    (hne : ¬ (r.self = r.target ∧ r.old = r.new)) (hsource : s.fs.entry r.self r.old = some source)
    (hdead : ∀ d, fs.isDead d = true → d ≠ r.target ∧ ∀ n, s.fs.entry d n = none)
    (halive : ∀ d, fs.isDead d = false → s.fs.isDead d = false)
    (hgone : ∀ d, s.fs.entry r.target r.new = some d → s.fs.isDir d = true → fs.isDead d = true) :
    Inv { s with fs := fs.moveEntry r source } limit (s.fs.entry r.target r.new) := by
  have hafter : ∀ d n, (fs.moveEntry r source).entry d n =
      if d = r.self ∧ n = r.old then none
      else if d = r.target ∧ n = r.new then some source else s.fs.entry d n := by
    intro d n
    rw [RamFs.entry_moveEntry ((hisDir _).trans hself) ((hisDir _).trans htarget), hentry]
  refine h.relinked (hfiles.trans (.moveEntry r source)) (fun d => by simp [hisDir])
    (fun i => by simp [hpresent]) (fun d n i hi => ?_) (fun i hi hlost => ?_) (fun d hd n => ?_)
    (fun d hd => halive d (by simpa using hd)) (fun d hlost hd => by simpa using hgone d hlost hd)
  · rw [hafter] at hi
    split_ifs at hi
    · obtain rfl := Option.some.inj hi
      exact h.listed _ _ _ hsource
    · exact h.listed d n i hi
  · obtain ⟨d, n, hi⟩ := hi
    by_cases hold : d = r.self ∧ n = r.old
    · -- the moved inode is listed in its new place
      obtain ⟨rfl, rfl⟩ := hold
      obtain rfl := Option.some.inj (hsource.symm.trans hi)
      refine ⟨r.target, r.new, ?_⟩
      rw [hafter, if_neg, if_pos ⟨rfl, rfl⟩]
      rintro ⟨h₁, h₂⟩
      exact hne ⟨h₁.symm, h₂.symm⟩
    · refine ⟨d, n, ?_⟩
      rw [hafter, if_neg hold, if_neg, hi]
      rintro ⟨rfl, rfl⟩
      exact hlost hi
  · obtain ⟨hd', hempty⟩ := hdead d (by simpa using hd)
    rw [hafter, hempty n, if_neg (not_and_of_not_left (n = r.new) hd'), ite_self]

theorem rename (h : s.Inv limit none) {r : Rename} {fs : RamFs} (hself : s.fs.isDir r.self = true)
    (htarget : s.fs.isDir r.target = true) (hrename : s.fs.rename r = some (.ok fs)) :
    Inv { s with fs } limit (s.fs.entry r.target r.new) := by
  obtain ⟨-, rfl⟩ | ⟨hne, halive, source, hsource, -, hrenamed⟩ := RamFs.rename_ok hrename
  · exact { h with live := fun i hi _ => h.live i hi (by simp) }
  have htargetDead : ∀ d, s.fs.isDead d = true → d ≠ r.target := by
    rintro d hd rfl
    exact Bool.false_ne_true (halive.symm.trans hd)
  cases hrenamed with
  | plain hfile =>
    refine h.moved ⟨rfl, fun _ => rfl, rfl, rfl⟩ (fun _ => rfl) (fun _ => .rfl) (fun _ _ => rfl) hself
      htarget hne hsource (fun d hd => ⟨htargetDead d hd, h.dead d hd⟩) (fun _ hd => hd) ?_
    intro d hd hdir
    exact absurd ((hfile d hd).symm.trans hdir) Bool.false_ne_true
  | @replacing existing hexisting hdir hempty =>
    have hisDead : ∀ d, (s.fs.markDead existing).isDead d =
        if d = existing then true else s.fs.isDead d := by
      intro d
      rw [RamFs.isDead_markDead hdir, Function.update_apply]
    refine h.moved (.setDir _) (fun _ => RamFs.isDir_markDead) (fun _ => RamFs.present_markDead)
      (fun _ _ => RamFs.entry_markDead) hself htarget hne hsource (fun d hd => ?_) (fun d hd => ?_)
      (fun d hd _ => ?_)
    · rw [hisDead] at hd
      split at hd
      · rename_i heq
        refine ⟨?_, heq ▸ hempty⟩
        -- the target lists the replaced directory, which lists nothing
        rintro rfl
        rw [heq, hempty] at hexisting
        contradiction
      · exact ⟨htargetDead d hd, h.dead d hd⟩
    · rw [hisDead] at hd
      split at hd
      · contradiction
      · exact hd
    · rw [hisDead, if_pos (Option.some.inj (hd.symm.trans hexisting))]

/-- An operation keeps the invariant, up to the inode that has lost a reference. -/
theorem effect (h : s.Inv limit none) (heffect : Effect s s' lost) :
    s'.Inv limit lost ∧ ∀ ino, lost = some ino → s'.fs.present ino := by
  -- a lost inode was listed, and is in the store until it is dropped
  have hunlisted : ∀ {fs : RamFs} {d : ℕ} {n : Name}, Inv { s with fs } limit (s.fs.entry d n) →
      (∀ i, fs.present i ↔ s.fs.present i) →
      Inv { s with fs } limit (s.fs.entry d n) ∧
        ∀ ino, s.fs.entry d n = some ino → fs.present ino :=
    fun hinv hpresent => ⟨hinv, fun ino hino => (hpresent ino).mpr (h.listed _ _ ino hino)⟩
  cases heffect with
  | nothing => exact ⟨h, (by simp)⟩
  | hold hino => exact ⟨h.hold hino, (by simp)⟩
  | @release ino hheld =>
    refine ⟨h.release ino, fun i hi => ?_⟩
    obtain rfl := Option.some.inj hi
    exact h.held ino hheld
  | create hdir hcreate =>
    obtain ⟨hinv, hpresent⟩ := h.create hdir hcreate
    exact ⟨hinv.hold hpresent, (by simp)⟩
  | rewrite hw => exact ⟨h.rewritten hw, (by simp)⟩
  | unlink hdir hunlink =>
    obtain ⟨child, -, -, rfl⟩ := RamFs.unlink_ok hunlink
    exact hunlisted (h.unlink hdir hunlink) fun i => by simp
  | rmdir hdir hrmdir =>
    obtain ⟨child, -, -, -, rfl⟩ := RamFs.rmdir_ok hrmdir
    exact hunlisted (h.rmdir hdir hrmdir) fun i => by simp
  | rename hself htarget hrename =>
    refine hunlisted (h.rename hself htarget hrename) fun i => ?_
    obtain ⟨-, rfl⟩ | ⟨-, -, source, -, -, hrenamed⟩ := RamFs.rename_ok hrename
    · exact .rfl
    · cases hrenamed <;> simp

theorem apply (h : s.Inv limit none) {op : Op} {answer : Except Errno Unit}
    (happly : s.apply op = some (answer, s', lost)) :
    s'.Inv limit lost ∧ ∀ ino, lost = some ino → s'.fs.present ino :=
  h.effect (h.effect_of_apply happly)

end Inv

/-! ## The tree -/

/-- A file's data is no part of the tree. -/
theorem treeOk_rewritten {fs fs' : RamFs} {ino : ℕ} {data data' : List UInt8} (h : fs.TreeOk)
    (hw : RamFs.Rewritten fs fs' ino data data') : fs'.TreeOk := by
  have hdir := hw.dir
  refine h.shrink (fun d n i hi => ?_) ?_ (fun i => hw.present) (fun j => ?_) fun j => ?_
  · rwa [RamFs.entry, RamFs.entries, hdir] at hi
  · obtain ⟨-, used, rfl, -, -⟩ := hw
    rfl
  · rw [RamFs.isDir, hdir, RamFs.isDir]
  · rw [RamFs.parentLink, hdir, RamFs.parentLink]

theorem treeOk_settle (h : s.fs.TreeOk) (hinv : s.Inv limit lost) : (s.settle lost).fs.TreeOk := by
  cases lost with
  | none => exact h
  | some ino =>
    rw [settle]
    split
    · exact h
    · rename_i hgone
      rw [live_iff hinv, not_or, not_or] at hgone
      exact h.drop hgone.1 fun d n hentry => hgone.2.2 ⟨d, n, hentry⟩

theorem treeOk_effect (h : s.fs.TreeOk) (heffect : Inv.Effect s s' lost) : s'.fs.TreeOk := by
  cases heffect with
  | nothing => exact h
  | hold => exact h
  | release => exact h
  | create hdir hcreate => exact h.of_created hdir (h.created hdir hcreate).2
  | rewrite hw => exact treeOk_rewritten h hw
  | unlink hdir hunlink =>
    obtain ⟨child, -, -, rfl⟩ := RamFs.unlink_ok hunlink
    exact h.erase hdir
  | rmdir hdir hrmdir =>
    obtain ⟨child, -, -, -, rfl⟩ := RamFs.rmdir_ok hrmdir
    exact (h.markDead child).erase (by rwa [RamFs.isDir_markDead])
  | @rename r fs hself htarget hrename =>
    obtain ⟨-, rfl⟩ | ⟨-, -, source, hsource, hwithin, hrenamed⟩ := RamFs.rename_ok hrename
    · exact h
    · cases hrenamed with
      | plain => exact h.moveEntry hsource htarget hwithin
      | @replacing existing =>
        refine (h.markDead existing).moveEntry (by rwa [RamFs.entry_markDead])
          (by rwa [RamFs.isDir_markDead]) fun hdir => ?_
        rw [RamFs.up_markDead]
        exact hwithin (by rwa [RamFs.isDir_markDead] at hdir)

/-- A run keeps the invariant and the tree. -/
theorem reachable_inv {limit : ℕ} (h : Run.Reachable (· = mount limit) Step s) :
    s.Inv limit none ∧ s.fs.TreeOk := by
  refine h.invariant (P := fun s => s.Inv limit none ∧ s.fs.TreeOk) ?_ ?_
  · rintro s rfl
    exact ⟨Inv.mount limit, RamFs.treeOk_withLimit limit⟩
  · rintro s op s' ⟨hinv, htree⟩ ⟨answer, detached, lost, happly, rfl⟩
    have heffect := hinv.effect_of_apply happly
    obtain ⟨hdetached, hlost⟩ := hinv.effect heffect
    exact ⟨hdetached.settle hlost, treeOk_settle (treeOk_effect htree heffect) hdetached⟩

/-! ## Giving bytes back -/

/-- `resize` gives back no more than the counter has. -/
theorem resizeReleased_le {fs : RamFs} {data : List UInt8} {newLength : ℕ} {room : Bool}
    (h : data.length ≤ fs.used) :
    ∀ p ∈ fs.resizeReleased data newLength room, p.1 ≤ p.2 := by
  intro p hp
  unfold RamFs.resizeReleased at hp
  split at hp
  · unfold RamFs.reserve at hp
    by_cases hreserve : fs.used + (newLength - data.length) < 2 ^ 64 ∧
        fs.used + (newLength - data.length) ≤ fs.limit
    · simp only [if_pos hreserve] at hp
      split at hp
      · contradiction
      · obtain rfl := List.mem_singleton.mp hp
        exact Nat.le_add_left _ _
    · simp only [if_neg hreserve] at hp
      contradiction
  · obtain rfl := List.mem_singleton.mp hp
    exact (Nat.sub_le _ _).trans h

/-- A dropped file gives back no more than the counter has. -/
theorem dropReleased_le (h : s.Inv limit lost) : ∀ p ∈ s.dropReleased lost, p.1 ≤ p.2 := by
  intro p hp
  unfold dropReleased at hp
  split at hp
  · contradiction
  · split at hp
    · contradiction
    · split at hp
      · rename_i data hdata
        obtain rfl := List.mem_singleton.mp hp
        exact h.covered hdata
      · contradiction

theorem released_le (h : s.Inv limit none) (op : Op) : ∀ p ∈ s.released op, p.1 ≤ p.2 := by
  intro p hp
  simp only [released] at hp
  split at hp
  · rename_i answer detached lost happly
    obtain hp | hp := List.mem_append.mp hp
    · split at hp
      · split at hp
        · rename_i data hdata
          split at hp
          · exact resizeReleased_le (h.covered hdata) p hp
          · contradiction
        · contradiction
      · split at hp
        · rename_i data hdata
          split at hp
          · exact resizeReleased_le (h.covered hdata) p hp
          · contradiction
        · contradiction
      · contradiction
    · exact dropReleased_le (h.apply happly).1 p hp
  · contradiction

/-! ## Every run -/

/-- What a run from a fresh mount keeps to. -/
structure Accounted (s : Space) (limit : ℕ) : Prop where
  /-- The counter is the bytes of all files that are linked or open. -/
  used : s.fs.used = ∑ ino ∈ (Finset.range s.fs.nextIno).filter (s.live ·), s.fs.fileLength ino
  below : ∀ ino, s.live ino → ino < s.fs.nextIno
  le_limit : s.fs.used ≤ limit
  /-- `release` does not go below zero. -/
  released : ∀ op, ∀ p ∈ s.released op, p.1 ≤ p.2
  writeAt_error : ∀ {ino offset buf room e fs'},
    s.fs.writeAt ino offset buf room = (.error e, fs') → fs' = s.fs
  truncate_error : ∀ {ino size room e fs'}, s.fs.truncate ino size room = (.error e, fs') → fs' = s.fs
  /-- What a write skips reads back as zeros. -/
  skipped : ∀ {ino offset buf room written fs' start count},
    s.fs.writeAt ino offset buf room = (.ok written, fs') → s.fs.fileLength ino ≤ start →
      start + count ≤ offset → fs'.readAt ino start count = .ok (List.replicate count 0)

theorem readAt_skipped (h : s.Inv limit none) {ino offset written start count : ℕ} {buf : List UInt8}
    {room : Bool} {fs : RamFs} (hwrite : s.fs.writeAt ino offset buf room = (.ok written, fs))
    (hstart : s.fs.fileLength ino ≤ start) (hcount : start + count ≤ offset) :
    fs.readAt ino start count = .ok (List.replicate count 0) := by
  obtain ⟨data, hdata, used, rfl, -, -⟩ := RamFs.writeAt_ok (fun data hdata => h.covered hdata)
    (h.limit_eq ▸ h.used_le) hwrite
  rw [RamFs.fileLength_of_file hdata] at hstart
  have hnode : ({ s.fs with used }.setData ino (RamFs.overwritten data offset buf)).node ino =
    some (.file (RamFs.overwritten data offset buf)) := Function.update_self _ _ _
  simp only [RamFs.readAt, hnode]
  congr 1
  -- the old data is before the window, and the zeros reach past its end
  have htake : data.take offset = data := List.take_of_length_le (by omega)
  rw [RamFs.overwritten, htake, List.append_assoc, List.append_assoc,
    List.drop_append, List.drop_eq_nil_of_le hstart, List.nil_append, List.drop_append,
    List.drop_replicate, List.take_append, List.take_replicate, Nat.min_eq_left (by omega),
    List.length_replicate, Nat.sub_eq_zero_of_le (by omega), List.take_zero, List.append_nil]

/-- In every run of whole operations on a fresh mount, `used` is the bytes of the files that are linked
or open. -/
theorem reachable_accounted {limit : ℕ} (h : Run.Reachable (· = mount limit) Step s) :
    s.Accounted limit := by
  obtain ⟨hinv, -⟩ := reachable_inv h
  refine ⟨?_, fun ino hino => ?_, hinv.used_le, released_le hinv, RamFs.writeAt_error,
    RamFs.truncate_error, readAt_skipped hinv⟩
  · rw [hinv.used, RamFs.total]
    refine (Finset.sum_filter_of_ne fun i _ hne => ?_).symm
    -- a file with bytes is in the store, and everything there is live
    rw [live_iff hinv]
    refine hinv.live i ?_ (by simp)
    by_contra habsent
    exact hne (RamFs.fileLength_of_absent (by simpa [RamFs.present] using habsent))
  · obtain rfl | hheld | ⟨d, n, hentry⟩ := (live_iff hinv).mp hino
    · exact hinv.below _ (RamFs.present_of_isDir hinv.root)
    · exact hinv.below _ (hinv.held _ hheld)
    · exact hinv.below _ (hinv.listed d n _ hentry)

/-- The state after an operation; the same one if it cannot be called. -/
def after (s : Space) (op : Op) : Space :=
  match s.apply op with
  | some (_, detached, lost) => detached.settle lost
  | none => s

theorem step_after {op : Op} (h : (s.apply op).isSome = true) : Step s op (s.after op) := by
  obtain ⟨⟨answer, detached, lost⟩, happly⟩ := Option.isSome_iff_exists.mp h
  refine ⟨answer, detached, lost, happly, ?_⟩
  rw [after, happly]

/-- A file of four bytes, of which three were skipped, unlinked while it is open. -/
def unlinkedOpen : Space :=
  (((mount 8).after (.create RamFs.rootIno [97] .file)).after (.writeAt 2 3 [1] true)).after
    (.unlink RamFs.rootIno [97])

theorem reachable_accounted_unlinkedOpen : unlinkedOpen.fs.used = 4 ∧ unlinkedOpen.Accounted 8 :=
  ⟨rfl, reachable_accounted
    (.next (.next (.next (.start rfl) (step_after rfl)) (step_after rfl)) (step_after rfl))⟩

end Space

end SaeOS.Fs
