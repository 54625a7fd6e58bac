import SaeOS.Fs.MkinitramfsPaths
import SaeOS.Lib.Alike

/-!
# The order of the builder's requests

A request names the nodes that it wants in the image (`Names`), whatever is there already. Requests are
accepted together when no two of them want a file's path for something else, so that neither the acceptance
of all of them nor the image depends on their order. In the archive the bytes of a directory's path are the
beginning of those of the paths below it, and come first.
-/

namespace SaeOS.Mkinitramfs

open Text

variable {path dir target : Text} {image image' : Image} {call call' : Call}

/-! ## One path -/

theorem Above.trans {dir' : Text} (h : Above dir dir') (h' : Above dir' path) : Above dir path := by
  obtain ⟨hne, rfl | ⟨rest, rfl⟩⟩ := h
  · exact h'
  · obtain ⟨-, rfl | ⟨rest', rfl⟩⟩ := h'
    · exact ⟨hne, .inr ⟨rest, rfl⟩⟩
    · refine ⟨hne, .inr ⟨rest ++ '/' :: rest', ?_⟩⟩
      rw [List.append_assoc, List.cons_append]

/-- The paths above a directory that is properly above a path are so themselves. -/
theorem ProperlyAbove.trans_left {dir' : Text} (h : Above dir dir') (h' : ProperlyAbove dir' path) :
    ProperlyAbove dir path := by
  refine ⟨h.trans h'.1, ?_⟩
  rintro rfl
  have hle := h.isPrefix.length_le
  exact h'.2 (h'.1.isPrefix.eq_of_length_le hle)

/-- An accepted directory is there behind its parents, or is put there. -/
theorem addDirectory_eq_ok (hrelative : relative target = .ok path) (hne : path ≠ []) :
    image.addDirectory target = .ok image' ↔ ∃ image₁, image.addParents path = .ok image₁ ∧
      (image₁.node path = some .directory ∧ image' = image₁ ∨
        image₁.node path = none ∧ image' = ⟨image₁.nodes.insert path .directory⟩) := by
  rw [Image.addDirectory]
  split
  · rename_i herror
    exact absurd (hrelative.symm.trans herror) (by simp)
  rename_i path' hok
  obtain rfl := Except.ok.inj (hrelative.symm.trans hok)
  rw [if_neg hne]
  cases hparents : image.addParents path with
  | error message => exact ⟨(fun h => by cases h), fun ⟨_, h, _⟩ => (by cases h)⟩
  | ok image₁ =>
    simp only [bind, Except.bind, Except.ok.injEq, exists_eq_left', Image.node]
    cases image₁.nodes[path]? with
    | none => simp [eq_comm]
    | some node =>
      cases node with
      | directory => simp [eq_comm]
      | file mode data => simp

/-- No file of the image is in the way of the given directories. -/
def Free (image : Image) (P : Text → Prop) : Prop :=
  ∀ dir, P dir → ∀ node, image.node dir = some node → node = .directory

/-- A directory that was accepted is there, and so is everything above it. -/
theorem node_above (hrelative : relative target = .ok path) (hclean : Clean path)
    (h : image.addDirectory target = .ok image') (habove : Above dir path) :
    image'.node dir = some .directory := by
  -- induction on the length of the path, since the parent is shorter
  induction hlength : path.length using Nat.strong_induction_on generalizing path target image' with
  | _ length ih =>
  obtain ⟨image₁, hparents, hpath⟩ := (addDirectory_eq_ok hrelative hclean.1).mp h
  by_cases heq : dir = path
  · subst heq
    obtain ⟨hnode, rfl⟩ | ⟨-, rfl⟩ := hpath
    · exact hnode
    · rw [node_insert, if_pos rfl]
  · have hbefore : image₁.node dir = some .directory := by
      obtain ⟨hnone, -⟩ | ⟨parent, hlt, hparent, hiff, hadd⟩ := addParents_cases hclean hparents
      · exact absurd ⟨habove, heq⟩ (hnone dir)
      · exact ih _ (hlength ▸ hlt) hparent.relative_eq hparent hadd ((hiff dir).mp ⟨habove, heq⟩) rfl
    obtain ⟨-, rfl⟩ | ⟨-, rfl⟩ := hpath
    · exact hbefore
    · rw [node_insert, if_neg heq, hbefore]

/-- A directory is accepted if no file is in the way. -/
theorem addDirectory_ok_iff (hrelative : relative target = .ok path) (hclean : Clean path) :
    (∃ image', image.addDirectory target = .ok image') ↔ Free image (Above · path) := by
  induction hlength : path.length using Nat.strong_induction_on generalizing path target with
  | _ length ih =>
  constructor
  · rintro ⟨image', h⟩ dir habove node hnode
    have hkept := (addDirectory_clean hrelative hclean h).kept hnode
    rw [node_above hrelative hclean h habove] at hkept
    exact (Option.some.inj hkept).symm
  · intro hfree
    obtain ⟨image₁, hparents⟩ : ∃ image₁, image.addParents path = .ok image₁ := by
      obtain ⟨-, heq⟩ | ⟨parent, hlt, hparent, hiff, heq⟩ := addParents_eq hclean
      · exact ⟨image, heq image⟩
      · rw [heq image]
        refine (ih _ (hlength ▸ hlt) hparent.relative_eq hparent rfl).mpr fun dir habove => ?_
        exact hfree dir ((hiff dir).mpr habove).1
    -- the parents put no file at the path
    have hpath : image₁.node path = some .directory ∨ image₁.node path = none := by
      cases hnode : image₁.node path with
      | none => exact .inr rfl
      | some node =>
        obtain hold | rfl := (addParents_clean hclean hparents).node_cases hnode
        · rw [hfree path hclean.above_self node hold]
          exact .inl rfl
        · exact .inl rfl
    obtain hnode | hnode := hpath
    · exact ⟨_, (addDirectory_eq_ok hrelative hclean.1).mpr ⟨image₁, hparents, .inl ⟨hnode, rfl⟩⟩⟩
    · exact ⟨_, (addDirectory_eq_ok hrelative hclean.1).mpr ⟨image₁, hparents, .inr ⟨hnode, rfl⟩⟩⟩

theorem addParents_ok_iff (hclean : Clean path) :
    (∃ image₁, image.addParents path = .ok image₁) ↔ Free image (ProperlyAbove · path) := by
  obtain ⟨hnone, heq⟩ | ⟨parent, -, hparent, hiff, heq⟩ := addParents_eq hclean
  · exact iff_of_true ⟨image, heq image⟩ fun dir hdir => absurd hdir (hnone dir)
  · simp only [heq image, addDirectory_ok_iff hparent.relative_eq hparent, Free, hiff]

/-! ## One request -/

/-- The node that a request wants at a path. -/
def Call.Names : Call → Text → Node → Prop
  | .addDirectory target, dir, node => node = .directory ∧ ∃ path, relative target = .ok path ∧ Above dir path
  | .addFile target mode data, dir, node => ∃ path, relative target = .ok path ∧
    (node = .directory ∧ ProperlyAbove dir path ∨ node = .file mode data ∧ dir = path)

/-- The target is one that the builder takes, and not the root for a file. -/
def Call.Valid : Call → Prop
  | .addDirectory target => ∃ path, relative target = .ok path
  | .addFile target _ _ => ∃ path, relative target = .ok path ∧ path ≠ []

/-- What is wanted at a path is a directory if something is there already. -/
def Agree (present wanted : Text → Node → Prop) : Prop :=
  ∀ dir node node', present dir node → wanted dir node' → node = .directory ∧ node' = .directory

/-- Requests that do not want a file's path for something else. -/
def Compatible (call call' : Call) : Prop :=
  Agree call.Names call'.Names

theorem Compatible.symm (h : Compatible call call') : Compatible call' call :=
  fun dir node node' hnode hnode' => (h dir node' node hnode' hnode).symm

/-- What has grown by directories has them at all the given paths, where no file is in the way. -/
theorem Grown.node_iff {P : Text → Prop} (h : Grown image image' P) (hfree : Free image P) (node : Node) :
    image'.node dir = some node ↔ image.node dir = some node ∨ node = .directory ∧ P dir := by
  cases hold : image.node dir with
  | none => rw [h.added hold, and_comm, or_iff_right (by simp)]
  | some old =>
    rw [h.kept hold, Option.some.injEq]
    refine ⟨.inl, fun hor => hor.elim id ?_⟩
    rintro ⟨rfl, hP⟩
    exact hfree dir hP old hold

theorem addFile_eq_ok_iff {mode : UInt32} {data : List UInt8} (hrelative : relative target = .ok path)
    (hne : path ≠ []) :
    image.addFile target mode data = .ok image' ↔ ∃ image₁, image.addParents path = .ok image₁ ∧
      image₁.node path = none ∧ image' = ⟨image₁.nodes.insert path (.file mode data)⟩ := by
  constructor
  · intro h
    obtain ⟨path', image₁, hrelative', -, hstep⟩ := addFile_eq_ok h
    obtain rfl := Except.ok.inj (hrelative.symm.trans hrelative')
    exact ⟨image₁, hstep⟩
  · rintro ⟨image₁, hparents, hnone, rfl⟩
    have hcontains : image₁.nodes.contains path = false := by
      rw [Std.TreeMap.contains_eq_isSome_getElem?, show image₁.nodes[path]? = none from hnone]
      rfl
    simp [Image.addFile, hrelative, hne, hparents, hcontains, bind, Except.bind, pure, Except.pure]

theorem names_addDirectory (hrelative : relative target = .ok path) (node : Node) :
    Call.Names (.addDirectory target) dir node ↔ node = .directory ∧ Above dir path := by
  simp [Call.Names, hrelative]

theorem names_addFile (hrelative : relative target = .ok path) (mode : UInt32) (data : List UInt8)
    (node : Node) :
    Call.Names (.addFile target mode data) dir node ↔
      node = .directory ∧ ProperlyAbove dir path ∨ node = .file mode data ∧ dir = path := by
  simp [Call.Names, hrelative]

theorem addDirectory_root (hrelative : relative target = .ok []) (image : Image) :
    image.addDirectory target = .ok image := by
  rw [Image.addDirectory]
  split
  · rename_i herror
    exact absurd (hrelative.symm.trans herror) (by simp)
  · rename_i path hok
    rw [if_pos (Except.ok.inj (hok.symm.trans hrelative))]

/-- Performing a request puts what it wants into the image. -/
theorem node_perform (h : image.perform call = .ok image') (node : Node) :
    image'.node dir = some node ↔ image.node dir = some node ∨ call.Names dir node := by
  cases call with
  | addDirectory target =>
    obtain ⟨path, hrelative, -⟩ := (performed h).named
    change relative target = .ok path at hrelative
    rw [names_addDirectory hrelative]
    by_cases hne : path = []
    · subst hne
      rw [Image.perform, addDirectory_root hrelative, Except.ok.injEq] at h
      rw [h, or_iff_left fun hnode => not_above_nil dir hnode.2]
    · have hclean := clean_of_relative hrelative hne
      have hfree := (addDirectory_ok_iff hrelative hclean).mp ⟨image', h⟩
      exact (addDirectory_clean hrelative hclean h).node_iff hfree node
  | addFile target mode data =>
    obtain ⟨path, image₁, hrelative, hne, hparents, hnone, rfl⟩ := addFile_eq_ok h
    have hclean := clean_of_relative hrelative hne
    have hfree := (addParents_ok_iff hclean).mp ⟨image₁, hparents⟩
    have hgrown (node : Node) : image₁.node dir = some node ↔ _ :=
      (addParents_clean hclean hparents).node_iff hfree node
    rw [names_addFile hrelative, node_insert]
    by_cases hdir : dir = path
    · -- nothing is at the file's path before
      subst hdir
      have hbefore : image.node dir ≠ some node := fun hsome =>
        absurd (hnone.symm.trans ((hgrown node).mpr (.inl hsome))) (by simp)
      simp [hbefore, ProperlyAbove, eq_comm]
    · change (if dir = path then _ else image₁.node dir) = _ ↔ _
      rw [if_neg hdir, hgrown node]
      simp only [hdir, and_false, or_false]

/-- A request is accepted if it is valid and agrees with what is in the image. -/
theorem perform_ok_iff (image : Image) (call : Call) :
    (∃ image', image.perform call = .ok image') ↔
      call.Valid ∧ Agree (fun dir node => image.node dir = some node) call.Names := by
  cases call with
  | addDirectory target =>
    cases hrelative : relative target with
    | error message =>
      refine iff_of_false ?_ ?_
      · rintro ⟨image', h⟩
        obtain ⟨path, hok, -⟩ := (performed h).named
        exact absurd (hrelative.symm.trans hok) (by simp)
      · rintro ⟨⟨path, hok⟩, -⟩
        exact absurd (hrelative.symm.trans hok) (by simp)
    | ok path =>
      have hagree : Agree (fun dir node => image.node dir = some node) (Call.Names (.addDirectory target)) ↔
          Free image (Above · path) := by
        simp only [Agree, Free, names_addDirectory hrelative]
        exact ⟨fun h dir habove node hnode => (h dir node .directory hnode ⟨rfl, habove⟩).1,
          fun h dir node node' hnode hnode' => ⟨h dir hnode'.2 node hnode, hnode'.1⟩⟩
      rw [hagree, and_iff_right ⟨path, hrelative⟩]
      by_cases hne : path = []
      · subst hne
        exact iff_of_true ⟨image, addDirectory_root hrelative image⟩ fun dir hdir => absurd hdir (not_above_nil dir)
      · exact addDirectory_ok_iff hrelative (clean_of_relative hrelative hne)
  | addFile target mode data =>
    constructor
    · rintro ⟨image', h⟩
      obtain ⟨path, image₁, hrelative, hne, hparents, hnone, -⟩ := addFile_eq_ok h
      have hclean := clean_of_relative hrelative hne
      have hfree := (addParents_ok_iff hclean).mp ⟨image₁, hparents⟩
      refine ⟨⟨path, hrelative, hne⟩, fun dir node node' hnode hnode' => ?_⟩
      obtain ⟨rfl, habove⟩ | ⟨rfl, rfl⟩ := (names_addFile hrelative mode data node').mp hnode'
      · exact ⟨hfree dir habove node hnode, rfl⟩
      · have hkept := ((addParents_clean hclean hparents).node_iff hfree node).mpr (.inl hnode)
        exact absurd (hnone.symm.trans hkept) (by simp)
    · rintro ⟨⟨path, hrelative, hne⟩, hagree⟩
      have hclean := clean_of_relative hrelative hne
      have hfree : Free image (ProperlyAbove · path) := fun dir habove node hnode =>
        (hagree dir node _ hnode ((names_addFile hrelative mode data _).mpr (.inl ⟨rfl, habove⟩))).1
      obtain ⟨image₁, hparents⟩ := (addParents_ok_iff hclean).mpr hfree
      have hnone : image₁.node path = none := by
        rw [Option.eq_none_iff_forall_ne_some]
        intro node hnode
        obtain hold | ⟨-, -, hne⟩ := ((addParents_clean hclean hparents).node_iff hfree node).mp hnode
        · have hwanted := (names_addFile hrelative mode data _).mpr (.inr ⟨rfl, rfl⟩)
          exact absurd (hagree path node _ hold hwanted).2 (by simp)
        · exact hne rfl
      exact ⟨_, (addFile_eq_ok_iff hrelative hne).mpr ⟨image₁, hparents, hnone, rfl⟩⟩

/-! ## All requests -/

/-- The image after a sequence of accepted requests has what it had and what they want. -/
theorem node_foldlM {calls : List Call} (h : calls.foldlM Image.perform image = .ok image') (node : Node) :
    image'.node dir = some node ↔ image.node dir = some node ∨ ∃ call ∈ calls, call.Names dir node := by
  induction calls generalizing image with
  | nil =>
    obtain rfl := Except.ok.inj h
    simp
  | cons call calls ih =>
    rw [List.foldlM_cons] at h
    obtain ⟨image₁, hfirst, hrest⟩ := Except.bind_eq_ok_iff.mp h
    rw [ih hrest, node_perform hfirst, List.exists_mem_cons_iff, or_assoc]

/-- To agree with what a request leaves is to agree with what was there and with the request. -/
theorem agree_perform (h : image.perform call = .ok image') (wanted : Text → Node → Prop) :
    Agree (fun dir node => image'.node dir = some node) wanted ↔
      Agree (fun dir node => image.node dir = some node) wanted ∧ Agree call.Names wanted := by
  simp only [Agree, node_perform h]
  exact ⟨fun hall => ⟨fun dir node node' hnode => hall dir node node' (.inl hnode),
      fun dir node node' hnode => hall dir node node' (.inr hnode)⟩,
    fun hboth dir node node' hnode => hnode.elim (hboth.1 dir node node') (hboth.2 dir node node')⟩

/-- A sequence is accepted if each of its requests is valid and agrees with the image and the others. -/
theorem foldlM_ok_iff (image : Image) (calls : List Call) :
    (∃ image', calls.foldlM Image.perform image = .ok image') ↔
      (∀ call ∈ calls, call.Valid ∧ Agree (fun dir node => image.node dir = some node) call.Names) ∧
        calls.Pairwise Compatible := by
  induction calls generalizing image with
  | nil => simp [pure, Except.pure]
  | cons call calls ih =>
    have hstep : (∃ image', (call :: calls).foldlM Image.perform image = .ok image') ↔
        ∃ image₁, image.perform call = .ok image₁ ∧
          ∃ image', calls.foldlM Image.perform image₁ = .ok image' := by
      simp only [List.foldlM_cons, Except.bind_eq_ok_iff]
      exact ⟨fun ⟨image', image₁, h⟩ => ⟨image₁, h.1, image', h.2⟩,
        fun ⟨image₁, h, image', h'⟩ => ⟨image', image₁, h, h'⟩⟩
    rw [hstep, List.forall_mem_cons, List.pairwise_cons]
    constructor
    · rintro ⟨image₁, hfirst, hrest⟩
      obtain ⟨hcalls, hpairwise⟩ := (ih image₁).mp hrest
      have hagree (call' : Call) (hmem : call' ∈ calls) :=
        (agree_perform hfirst call'.Names).mp (hcalls call' hmem).2
      exact ⟨⟨(perform_ok_iff image call).mp ⟨image₁, hfirst⟩,
        fun call' hmem => ⟨(hcalls call' hmem).1, (hagree call' hmem).1⟩⟩,
        fun call' hmem => (hagree call' hmem).2, hpairwise⟩
    · rintro ⟨⟨hcall, hcalls⟩, hcompatible, hpairwise⟩
      obtain ⟨image₁, hfirst⟩ := (perform_ok_iff image call).mpr hcall
      refine ⟨image₁, hfirst, (ih image₁).mpr ⟨fun call' hmem => ⟨(hcalls call' hmem).1, ?_⟩, hpairwise⟩⟩
      exact (agree_perform hfirst _).mpr ⟨(hcalls call' hmem).2, hcompatible call' hmem⟩

theorem build_ok_iff (calls : List Call) :
    (∃ image, build calls = .ok image) ↔ (∀ call ∈ calls, call.Valid) ∧ calls.Pairwise Compatible := by
  rw [build, foldlM_ok_iff]
  refine and_congr_left fun _ => forall₂_congr fun call _ => and_iff_left fun dir node node' hnode => ?_
  exact absurd (hnode.symm.trans (Std.TreeMap.getElem?_emptyc : Image.empty.node dir = none)) (by simp)

theorem node_build {calls : List Call} (h : build calls = .ok image) (node : Node) :
    image.node dir = some node ↔ ∃ call ∈ calls, call.Names dir node := by
  rw [node_foldlM h, or_iff_right fun hnode => ?_]
  exact absurd (hnode.symm.trans (Std.TreeMap.getElem?_emptyc : Image.empty.node dir = none)) (by simp)

/-! ## The archive -/

/-- The archive depends on the nodes alone. -/
theorem members_eq (h : ∀ dir, image.node dir = image'.node dir) : image.members = image'.members := by
  have hequiv : image.nodes.Equiv image'.nodes := Std.TreeMap.Equiv.of_forall_constGet?_eq h
  rw [Image.members, Image.members, hequiv.toList_eq]

theorem compare_append (bytes : List UInt8) (byte : UInt8) (rest : List UInt8) :
    compare bytes (bytes ++ byte :: rest) = .lt := by
  induction bytes with
  | nil => rfl
  | cons first bytes ih =>
    have hfirst : compare first first = .eq := Std.ReflCmp.compare_self
    rw [List.cons_append, List.compare_cons_cons, hfirst, ih]
    rfl

/-- A path comes behind those of the directories above it. -/
theorem order_lt (h : ProperlyAbove dir path) : order dir path = .lt := by
  obtain ⟨⟨-, rfl | ⟨rest, rfl⟩⟩, hne⟩ := h
  · exact absurd rfl hne
  · rw [order, compareOn, asBytes_append]
    exact compare_append ..

/-- What a request wants below a directory, it wants with the directory. -/
theorem names_above {node : Node} (h : call.Names path node) (habove : ProperlyAbove dir path) :
    call.Names dir .directory := by
  cases call with
  | addDirectory target =>
    obtain ⟨-, whole, hrelative, hpath⟩ := h
    exact ⟨rfl, whole, hrelative, habove.1.trans hpath⟩
  | addFile target mode data =>
    obtain ⟨whole, hrelative, ⟨-, hpath⟩ | ⟨-, rfl⟩⟩ := h
    · exact ⟨whole, hrelative, .inl ⟨rfl, hpath.trans_left habove.1⟩⟩
    · exact ⟨path, hrelative, .inl ⟨rfl, habove⟩⟩

/-- Every member comes behind those of its parent directories. -/
theorem members_parents {calls : List Call} (h : build calls = .ok image) {before after : List Member}
    {m : Member} (hmembers : image.members = before ++ m :: after) (habove : ProperlyAbove dir m.path) :
    member dir .directory ∈ before := by
  obtain ⟨entries, later, hlist, rfl, hlater⟩ := List.map_eq_append_iff.mp hmembers
  obtain ⟨⟨path, node⟩, later, rfl, rfl, -⟩ := List.map_eq_cons_iff.mp hlater
  rw [path_member] at habove
  have hnode : image.node path = some node := by
    refine Std.TreeMap.mem_toList_iff_getElem?_eq_some.mp ?_
    rw [hlist]
    exact List.mem_append_right _ List.mem_cons_self
  obtain ⟨call, hmem, hnames⟩ := (node_build h node).mp hnode
  have hdir := (node_build h .directory).mpr ⟨call, hmem, names_above hnames habove⟩
  have hentry : (dir, Node.directory) ∈ image.nodes.toList :=
    Std.TreeMap.mem_toList_iff_getElem?_eq_some.mpr hdir
  rw [hlist, List.mem_append, List.mem_cons] at hentry
  -- the entries are in the order of their paths
  have hsorted : image.nodes.toList.Pairwise fun a b => order a.1 b.1 = .lt :=
    Std.TreeMap.ordered_keys_toList
  rw [hlist, List.pairwise_append, List.pairwise_cons] at hsorted
  obtain hbefore | heq | hafter := hentry
  · exact List.mem_map.mpr ⟨_, hbefore, rfl⟩
  · exact absurd (congrArg Prod.fst heq) habove.2
  · have hlt := hsorted.2.1.1 _ hafter
    have hgt := Std.OrientedCmp.gt_of_lt (order_lt habove)
    exact absurd (hlt.symm.trans hgt) (by simp)

theorem members_nodup (image : Image) : (image.members.map Member.path).Nodup := by
  have hpaths : image.members.map Member.path = image.nodes.keys := by
    rw [Image.members, List.map_map, ← Std.TreeMap.map_fst_toList_eq_keys]
    exact List.map_congr_left fun entry _ => path_member entry.1 entry.2
  rw [hpaths]
  exact Std.TreeMap.nodup_keys

/-- Either every order of the requests has one that is rejected, or all orders give the same archive, where
every path occurs once and behind those of its parent directories. -/
theorem build_order_independent (requests : Multiset Call) :
    (∀ calls : List Call, ↑calls = requests → ∃ message, build calls = .error message) ∨
      ∃ archive members, (members.map Member.path).Nodup ∧
        (∀ before m after, members = before ++ m :: after → ∀ dir, ProperlyAbove dir m.path →
          member dir .directory ∈ before) ∧
        ∀ calls : List Call, ↑calls = requests →
          ∃ image, build calls = .ok image ∧ image.members = members ∧ image.toCpio = archive := by
  induction requests using Quotient.inductionOn with
  | _ first =>
  by_cases haccepted : ∃ image, build first = .ok image
  · obtain ⟨image, himage⟩ := haccepted
    refine .inr ⟨image.toCpio, image.members, members_nodup image,
      fun _ _ _ hmembers dir => members_parents himage hmembers, fun calls hcalls => ?_⟩
    have hperm : calls.Perm first := Quotient.exact hcalls
    obtain ⟨image', himage'⟩ : ∃ image', build calls = .ok image' := by
      obtain ⟨hvalid, hpairwise⟩ := (build_ok_iff first).mp ⟨image, himage⟩
      refine (build_ok_iff calls).mpr ⟨fun call hmem => hvalid call (hperm.mem_iff.mp hmem), ?_⟩
      exact (hperm.pairwise_iff Compatible.symm).mpr hpairwise
    have hnodes (dir : Text) : image'.node dir = image.node dir := by
      refine Option.ext fun node => ?_
      simp only [node_build himage', node_build himage, hperm.mem_iff]
    have hmembers := members_eq hnodes
    exact ⟨image', himage', hmembers, congrArg write hmembers⟩
  · refine .inl fun calls hcalls => ?_
    have hperm : calls.Perm first := Quotient.exact hcalls
    cases hbuild : build calls with
    | error message => exact ⟨message, rfl⟩
    | ok image =>
      obtain ⟨hvalid, hpairwise⟩ := (build_ok_iff calls).mp ⟨image, hbuild⟩
      refine absurd ((build_ok_iff first).mpr ⟨fun call hmem => hvalid call (hperm.mem_iff.mpr hmem), ?_⟩) haccepted
      exact (hperm.pairwise_iff Compatible.symm).mp hpairwise

end SaeOS.Mkinitramfs
