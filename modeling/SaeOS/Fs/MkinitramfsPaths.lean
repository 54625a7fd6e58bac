import Mathlib.Data.Set.Card
import SaeOS.Fs.Mkinitramfs

/-!
# The paths of an image

What a sequence of accepted calls leaves in the image: the path of every target and of every directory
above it, each once, in the form that the builder checked.
-/

namespace SaeOS.Mkinitramfs

open Text

/-! ## Clean paths -/

/-- A path as the builder keeps it. -/
def Clean (path : Text) : Prop :=
  path ≠ [] ∧ ∀ component ∈ path.splitOn '/', refused component = false

theorem refused_eq_false {component : Text} (h : refused component = false) :
    component ≠ [] ∧ component ≠ ['.'] ∧ component ≠ ['.', '.'] := by
  simpa [refused] using h

/-- `dir` is the path itself or a directory on the way to it. -/
def Above (dir path : Text) : Prop :=
  dir ≠ [] ∧ (dir = path ∨ ∃ rest, path = dir ++ '/' :: rest)

variable {path dir target : Text}

theorem Above.isPrefix (h : Above dir path) : dir <+: path := by
  obtain ⟨-, rfl | ⟨rest, rfl⟩⟩ := h
  · exact List.prefix_rfl
  · exact List.prefix_append dir _

/-- The components of a directory are the first ones of the path. -/
theorem Above.splitOn_prefix (h : Above dir path) : dir.splitOn '/' <+: path.splitOn '/' := by
  obtain ⟨-, rfl | ⟨rest, rfl⟩⟩ := h
  · exact List.prefix_rfl
  · rw [List.splitOn_append_cons_self]
    exact List.prefix_append _ _

theorem Clean.above (h : Clean path) (hdir : Above dir path) : Clean dir :=
  ⟨hdir.1, fun component hmem => h.2 component (hdir.splitOn_prefix.subset hmem)⟩

theorem Clean.above_self (h : Clean path) : Above path path :=
  ⟨h.1, .inl rfl⟩

/-- The first component is a directory on the way, or the whole path. -/
theorem Clean.above_head (h : Clean path) {component : Text}
    (hhead : (path.splitOn '/').head? = some component) : Above component path := by
  obtain ⟨components, hsplit⟩ : ∃ components, path.splitOn '/' = component :: components := by
    cases hlist : path.splitOn '/' with
    | nil => exact absurd (hlist ▸ hhead) (by simp)
    | cons first components =>
      rw [hlist, List.head?_cons, Option.some.injEq] at hhead
      exact ⟨components, by rw [hhead]⟩
  have hjoin : ['/'].intercalate (path.splitOn '/') = path := List.intercalate_splitOn '/'
  have hrefused := h.2 component (by rw [hsplit]; exact List.mem_cons_self)
  refine ⟨(refused_eq_false hrefused).1, ?_⟩
  rw [hsplit] at hjoin
  cases components with
  | nil => exact .inl (by simpa using hjoin)
  | cons next components =>
    refine .inr ⟨['/'].intercalate (next :: components), ?_⟩
    rw [← hjoin, List.intercalate_cons_cons, List.append_assoc, List.singleton_append]

/-! ## Parents -/

/-- The last slash cuts a path at its last component. -/
theorem rfindSlash_eq_some {index : ℕ} (h : rfindSlash path = some index) :
    ∃ name, path = path.take index ++ '/' :: name ∧ '/' ∉ name := by
  rw [rfindSlash, Option.map_eq_some_iff] at h
  obtain ⟨back, hback, rfl⟩ := h
  obtain ⟨-, hpath, hname⟩ := eq_of_findIdx?_reverse hback
  exact ⟨_, hpath, hname⟩

theorem rfindSlash_eq_none (h : rfindSlash path = none) : '/' ∉ path := by
  rw [rfindSlash, Option.map_eq_none_iff] at h
  exact notMem_of_findIdx?_reverse h

/-- Above a path with a last slash are the path and what is above its parent. -/
theorem above_append {name : Text} (hname : '/' ∉ name) :
    Above dir (path ++ '/' :: name) ↔ dir = path ++ '/' :: name ∨ Above dir path := by
  constructor
  · rintro ⟨hne, heq | ⟨rest, heq⟩⟩
    · exact .inl heq
    · right
      rcases List.append_eq_append_iff.mp heq with ⟨more, rfl, hmore⟩ | ⟨more, rfl, hmore⟩
      · -- a longer directory would have a slash in the name
        cases more with
        | nil => exact ⟨hne, .inl (by simp)⟩
        | cons c more =>
          rw [List.cons_append, List.cons.injEq] at hmore
          exact absurd (by rw [hmore.2]; simp) hname
      · cases more with
        | nil => exact ⟨hne, .inl (by simp)⟩
        | cons c more =>
          rw [List.cons_append, List.cons.injEq] at hmore
          exact ⟨hne, .inr ⟨more, by rw [hmore.1]⟩⟩
  · rintro (rfl | ⟨hne, rfl | ⟨rest, rfl⟩⟩)
    · exact ⟨by simp, .inl rfl⟩
    · exact ⟨hne, .inr ⟨name, rfl⟩⟩
    · exact ⟨hne, .inr ⟨rest ++ '/' :: name, by rw [List.append_assoc, List.cons_append]⟩⟩

theorem above_of_notMem (hpath : path ≠ []) (hslash : '/' ∉ path) : Above dir path ↔ dir = path := by
  constructor
  · rintro ⟨-, heq | ⟨rest, rfl⟩⟩
    · exact heq
    · exact absurd (by simp) hslash
  · rintro rfl
    exact ⟨hpath, .inl rfl⟩

/-- A clean path does not end in a slash. -/
theorem Clean.stripSlash_eq (h : Clean path) : stripSlash path = path := by
  rw [stripSlash, if_neg]
  intro hlast
  obtain ⟨front, rfl⟩ := List.getLast?_eq_some_iff.mp hlast
  have hempty : refused [] = false := by
    refine h.2 [] ?_
    rw [List.splitOn_append_cons_self, List.splitOn_nil]
    simp
  exact absurd hempty (by decide)

theorem Clean.relative_eq (h : Clean path) : relative ('/' :: path) = .ok path := by
  rw [relative, h.stripSlash_eq, if_neg]
  rintro ⟨-, hany⟩
  obtain ⟨component, hmem, hrefused⟩ := List.any_eq_true.mp hany
  rw [h.2 component hmem] at hrefused
  exact Bool.false_ne_true hrefused

theorem clean_of_relative (h : relative target = .ok path) (hne : path ≠ []) : Clean path :=
  ⟨hne, (relative_eq_ok h).2 hne⟩

/-! ## The image after a call -/

/-- The node at a path. -/
def Image.node (image : Image) (path : Text) : Option Node :=
  image.nodes[path]?

theorem node_insert (nodes : Std.TreeMap Text Node order) (path dir : Text) (node : Node) :
    Image.node ⟨nodes.insert path node⟩ dir =
      if dir = path then some node else Image.node ⟨nodes⟩ dir := by
  rw [Image.node, Std.TreeMap.getElem?_insert, Image.node]
  simp only [Std.LawfulEqCmp.compare_eq_iff_eq, eq_comm (a := path)]

/-- The image has grown by directories at the absent ones of the given paths. -/
structure Grown (image image' : Image) (P : Text → Prop) : Prop where
  kept : ∀ {path node}, image.node path = some node → image'.node path = some node
  added : ∀ {path node}, image.node path = none →
    (image'.node path = some node ↔ P path ∧ node = .directory)

variable {image image' : Image} {P Q : Text → Prop}

theorem Grown.refl (image : Image) : Grown image image fun _ => False :=
  ⟨id, fun h => by rw [h]; simp⟩

theorem Grown.congr (h : Grown image image' P) (hiff : ∀ path, P path ↔ Q path) :
    Grown image image' Q :=
  ⟨h.kept, fun hnone => by rw [h.added hnone, hiff]⟩

/-- One more directory behind those already added. -/
theorem Grown.insert {image₁ : Image} (h : Grown image image₁ P) (hnone : image₁.node path = none) :
    Grown image ⟨image₁.nodes.insert path .directory⟩ fun dir => dir = path ∨ P dir := by
  constructor
  · intro dir node hsome
    have hkept := h.kept hsome
    rw [node_insert, if_neg, hkept]
    rintro rfl
    exact absurd (hnone.symm.trans hkept) (by simp)
  · intro dir node hdir
    rw [node_insert]
    by_cases heq : dir = path
    · simp [heq, eq_comm]
    · simp only [heq, if_false, false_or]
      exact h.added hdir

theorem Grown.present {image₁ : Image} (h : Grown image image₁ P)
    (hsome : image₁.node path = some .directory) :
    Grown image image₁ fun dir => dir = path ∨ P dir := by
  refine ⟨h.kept, fun hnone => ?_⟩
  rw [h.added hnone]
  constructor
  · rintro ⟨hP, rfl⟩
    exact ⟨.inr hP, rfl⟩
  · rintro ⟨rfl | hP, rfl⟩
    · exact (h.added hnone).mp hsome
    · exact ⟨hP, rfl⟩

/-- What is above a path without the path itself: the directories that `add_parents` makes. -/
def ProperlyAbove (dir path : Text) : Prop :=
  Above dir path ∧ dir ≠ path

/-- `add_directory` of a path behind what `add_parents` did. -/
theorem addDirectory_of_parents (hrelative : relative target = .ok path) (hclean : Clean path)
    (hparents : ∀ {image₁}, image.addParents path = .ok image₁ →
      Grown image image₁ (ProperlyAbove · path))
    (h : image.addDirectory target = .ok image') : Grown image image' (Above · path) := by
  have hiff (dir : Text) : dir = path ∨ ProperlyAbove dir path ↔ Above dir path := by
    constructor
    · rintro (rfl | ⟨habove, -⟩)
      · exact hclean.above_self
      · exact habove
    · intro habove
      by_cases heq : dir = path
      · exact .inl heq
      · exact .inr ⟨habove, heq⟩
  rw [Image.addDirectory] at h
  split at h
  · contradiction
  · rename_i path' hpath'
    rw [hrelative, Except.ok.injEq] at hpath'
    subst hpath'
    rw [if_neg hclean.1] at h
    cases hstep : image.addParents path with
    | error message =>
      rw [hstep] at h
      contradiction
    | ok image₁ =>
      rw [hstep] at h
      have hgrown := hparents hstep
      simp only [bind, Except.bind] at h
      split at h
      · rename_i hnode
        obtain rfl := Except.ok.inj h
        exact (hgrown.present hnode).congr hiff
      · contradiction
      · rename_i hnode
        obtain rfl := Except.ok.inj h
        exact (hgrown.insert hnode).congr hiff

/-- `add_parents` of a path with a parent adds the parent, and what is above it. -/
theorem addParents_eq (hclean : Clean path) :
    ((∀ dir, ¬ ProperlyAbove dir path) ∧ ∀ image, Image.addParents image path = .ok image) ∨
      ∃ parent, parent.length < path.length ∧ Clean parent ∧
        (∀ dir, ProperlyAbove dir path ↔ Above dir parent) ∧
        ∀ image, Image.addParents image path = image.addDirectory ('/' :: parent) := by
  cases hindex : rfindSlash path with
  | some index =>
    obtain ⟨name, hpath, hname⟩ := rfindSlash_eq_some hindex
    have hlt := rfindSlash_lt hindex
    set parent := path.take index with hparent
    -- a leading slash would leave an empty component
    have hne : parent ≠ [] := by
      intro hnil
      rw [hnil, List.nil_append] at hpath
      have hempty := hclean.2 [] (by
        rw [hpath, ← List.nil_append ('/' :: name), List.splitOn_append_cons_self]
        simp)
      exact absurd hempty (by decide)
    have habove : Above parent path := ⟨hne, .inr ⟨name, hpath⟩⟩
    refine .inr ⟨parent, by rw [hparent, List.length_take]; omega, hclean.above habove, ?_, fun image => ?_⟩
    · intro dir
      have hiff : Above dir (parent ++ '/' :: name) ↔ _ := above_append hname
      rw [← hpath] at hiff
      constructor
      · rintro ⟨hdir, hdirne⟩
        exact (hiff.mp hdir).resolve_left hdirne
      · intro hdir
        refine ⟨hiff.mpr (.inr hdir), ?_⟩
        rintro rfl
        have hle := hdir.isPrefix.length_le
        rw [hparent, List.length_take] at hle
        omega
    · rw [Image.addParents]
      split
      · rename_i index' hindex'
        obtain rfl := Option.some.inj (hindex.symm.trans hindex')
        rfl
      · rename_i hnone
        exact absurd (hindex.symm.trans hnone) (by simp)
  | none =>
    refine .inl ⟨fun dir hdir => ?_, fun image => ?_⟩
    · exact hdir.2 ((above_of_notMem hclean.1 (rfindSlash_eq_none hindex)).mp hdir.1)
    · rw [Image.addParents]
      split
      · rename_i hsome
        exact absurd (hindex.symm.trans hsome) (by simp)
      · rfl

/-- What `add_parents` does when it is accepted. -/
theorem addParents_cases (hclean : Clean path) {image₁ : Image}
    (h : image.addParents path = .ok image₁) :
    ((∀ dir, ¬ ProperlyAbove dir path) ∧ image₁ = image) ∨
      ∃ parent, parent.length < path.length ∧ Clean parent ∧
        (∀ dir, ProperlyAbove dir path ↔ Above dir parent) ∧
        image.addDirectory ('/' :: parent) = .ok image₁ := by
  rcases addParents_eq hclean with ⟨hnone, heq⟩ | ⟨parent, hlt, hparent, hiff, heq⟩
  · exact .inl ⟨hnone, Except.ok.inj (h.symm.trans (heq image))⟩
  · exact .inr ⟨parent, hlt, hparent, hiff, (heq image).symm.trans h⟩

/-- `add_parents`, given what adding a shorter path does. -/
theorem addParents_of_shorter (hclean : Clean path) {image₁ : Image}
    (hshorter : ∀ parent, parent.length < path.length → Clean parent →
      image.addDirectory ('/' :: parent) = .ok image₁ → Grown image image₁ (Above · parent))
    (h : image.addParents path = .ok image₁) : Grown image image₁ (ProperlyAbove · path) := by
  rcases addParents_cases hclean h with ⟨hnone, rfl⟩ | ⟨parent, hlt, hparent, hiff, hadd⟩
  · exact (Grown.refl _).congr fun dir => iff_of_false id (hnone dir)
  · exact (hshorter parent hlt hparent hadd).congr fun dir => (hiff dir).symm

/-- Adding the directory of a clean path adds what is above it. -/
theorem addDirectory_clean (hrelative : relative target = .ok path) (hclean : Clean path)
    (h : image.addDirectory target = .ok image') : Grown image image' (Above · path) := by
  -- induction on the length of the path, since the parent is shorter
  induction hlength : path.length using Nat.strong_induction_on generalizing path target image' with
  | _ length ih =>
    refine addDirectory_of_parents hrelative hclean (addParents_of_shorter hclean ?_) h
    intro parent hlt hparent hadd
    exact ih _ (hlength ▸ hlt) hparent.relative_eq hparent hadd rfl

theorem addParents_clean (hclean : Clean path) {image₁ : Image}
    (h : image.addParents path = .ok image₁) : Grown image image₁ (ProperlyAbove · path) :=
  addParents_of_shorter hclean (fun _ _ hparent => addDirectory_clean hparent.relative_eq hparent) h

/-! ## The image after a sequence of calls -/

/-- The paths that calls name: those of their targets and of the directories above them. -/
def named (calls : List Call) : Set Text :=
  {dir | ∃ call ∈ calls, ∃ path, relative call.target = .ok path ∧ Above dir path}

/-- What an accepted call does to the image. -/
structure Performed (call : Call) (image image' : Image) : Prop where
  named : ∃ path, relative call.target = .ok path ∧
    ∀ dir, (image'.node dir).isSome ↔ (image.node dir).isSome ∨ Above dir path
  nodes : ∀ {dir node}, image'.node dir = some node →
    image.node dir = some node ∨ node = .directory ∨
      ∃ target mode data, call = .addFile target mode data ∧ node = .file mode data

theorem Grown.isSome_iff (h : Grown image image' P) (dir : Text) :
    (image'.node dir).isSome ↔ (image.node dir).isSome ∨ P dir := by
  cases hold : image.node dir with
  | some node => simp [h.kept hold]
  | none => simp [Option.isSome_iff_exists, h.added hold]

theorem Grown.node_cases (h : Grown image image' P) {dir : Text} {node : Node}
    (hnode : image'.node dir = some node) : image.node dir = some node ∨ node = .directory := by
  cases hold : image.node dir with
  | some old =>
    left
    exact (h.kept hold).symm.trans hnode
  | none => exact .inr ((h.added hold).mp hnode).2

theorem not_above_nil (dir : Text) : ¬ Above dir [] := by
  rintro ⟨hne, rfl | ⟨rest, hrest⟩⟩
  · exact hne rfl
  · exact absurd hrest (by simp)

theorem performed_addDirectory (h : image.addDirectory target = .ok image') :
    Performed (.addDirectory target) image image' := by
  cases hrelative : relative target with
  | error message =>
    rw [Image.addDirectory] at h
    split at h
    · contradiction
    · rename_i hok
      exact absurd (hrelative.symm.trans hok) (by simp)
  | ok path =>
    by_cases hne : path = []
    · subst hne
      rw [Image.addDirectory] at h
      split at h
      · contradiction
      · rename_i path hok
        rw [hrelative, Except.ok.injEq] at hok
        rw [if_pos hok.symm, Except.ok.injEq] at h
        subst h
        exact ⟨⟨[], hrelative, fun dir => by simp [not_above_nil]⟩, .inl⟩
    · have hgrown := addDirectory_clean hrelative (clean_of_relative hrelative hne) h
      exact ⟨⟨path, hrelative, hgrown.isSome_iff⟩,
        fun hnode => (hgrown.node_cases hnode).imp_right .inl⟩

theorem addFile_eq_ok {mode : UInt32} {data : List UInt8}
    (h : image.addFile target mode data = .ok image') :
    ∃ path image₁, relative target = .ok path ∧ path ≠ [] ∧ image.addParents path = .ok image₁ ∧
      image₁.node path = none ∧ image' = ⟨image₁.nodes.insert path (.file mode data)⟩ := by
  unfold Image.addFile at h
  cases hrelative : relative target with
  | error message =>
    rw [hrelative] at h
    contradiction
  | ok path =>
    rw [hrelative] at h
    by_cases hne : path = []
    · simp only [hne, bind, Except.bind] at h
      contradiction
    · cases hparents : image.addParents path with
      | error message =>
        simp only [hne, hparents, bind, Except.bind] at h
        contradiction
      | ok image₁ =>
        simp only [hne, hparents, bind, Except.bind, pure, Except.pure, if_false] at h
        split at h
        · contradiction
        · rename_i hcontains
          refine ⟨path, image₁, rfl, hne, hparents, ?_, (Except.ok.inj h).symm⟩
          rw [Image.node]
          refine Std.TreeMap.getElem?_eq_none_of_contains_eq_false ?_
          exact eq_false_of_ne_true hcontains

theorem performed_addFile {mode : UInt32} {data : List UInt8}
    (h : image.addFile target mode data = .ok image') :
    Performed (.addFile target mode data) image image' := by
  obtain ⟨path, image₁, hrelative, hne, hparents, hnone, rfl⟩ := addFile_eq_ok h
  have hclean := clean_of_relative hrelative hne
  have hgrown := addParents_clean hclean hparents
  constructor
  · refine ⟨path, hrelative, fun dir => ?_⟩
    rw [node_insert]
    by_cases heq : dir = path
    · subst heq
      simp [hclean.above_self]
    · rw [if_neg heq, hgrown.isSome_iff]
      simp [ProperlyAbove, heq]
  · intro dir node hnode
    rw [node_insert] at hnode
    split at hnode
    · exact .inr (.inr ⟨target, mode, data, rfl, (Option.some.inj hnode).symm⟩)
    · exact (hgrown.node_cases hnode).imp_right .inl

theorem performed {call : Call} (h : image.perform call = .ok image') :
    Performed call image image' := by
  cases call with
  | addDirectory target => exact performed_addDirectory h
  | addFile target mode data => exact performed_addFile h

/-- An accepted sequence leaves exactly the paths that it names, with the files that it gives. -/
theorem build_ok {calls : List Call} (h : build calls = .ok image) :
    (∀ dir, (image.node dir).isSome ↔ dir ∈ named calls) ∧
      ∀ {dir mode data}, image.node dir = some (.file mode data) →
        ∃ target, Call.addFile target mode data ∈ calls := by
  -- induction on the calls from the last one
  induction calls using List.reverseRecOn generalizing image with
  | nil =>
    obtain rfl := Except.ok.inj h
    have hnone (dir : Text) : Image.empty.node dir = none := Std.TreeMap.getElem?_emptyc
    refine ⟨fun dir => ?_, fun hnode => absurd ((hnone _).symm.trans hnode) (by simp)⟩
    simp [hnone, named]
  | append_singleton calls call ih =>
    rw [build, List.foldlM_append] at h
    cases hbefore : calls.foldlM Image.perform Image.empty with
    | error message =>
      rw [hbefore] at h
      contradiction
    | ok image₁ =>
      rw [hbefore] at h
      obtain ⟨hnamed, hfiles⟩ := ih hbefore
      simp only [bind, Except.bind, List.foldlM_cons, List.foldlM_nil, pure, Except.pure] at h
      split at h
      · contradiction
      · rename_i image₂ hstep
        obtain rfl := Except.ok.inj h
        obtain ⟨⟨path, hrelative, hsome⟩, hnodes⟩ := performed hstep
        constructor
        · intro dir
          rw [hsome, hnamed]
          simp only [named, Set.mem_ofPred_eq, List.mem_append, List.mem_singleton, or_and_right,
            exists_or, exists_eq_left, hrelative, Except.ok.injEq, exists_eq_left']
        · intro dir mode data hnode
          rcases hnodes hnode with hold | hdir | ⟨target, mode', data', rfl, hfile⟩
          · obtain ⟨target, hmem⟩ := hfiles hold
            exact ⟨target, List.mem_append_left _ hmem⟩
          · contradiction
          · obtain ⟨rfl, rfl⟩ := Node.file.inj hfile
            exact ⟨target, List.mem_append_right _ (List.mem_singleton.mpr rfl)⟩

/-- A named path is one that the builder checked. -/
theorem clean_of_named {calls : List Call} {dir : Text} (h : dir ∈ named calls) : Clean dir := by
  obtain ⟨call, -, path, hrelative, habove⟩ := h
  have hne : path ≠ [] := by
    rintro rfl
    exact not_above_nil dir habove
  exact (clean_of_relative hrelative hne).above habove

/-! ## Members -/

theorem path_member (path : Text) (node : Node) : (member path node).path = path := by
  cases node <;> rfl

theorem mem_members {m : Member} :
    m ∈ image.members ↔ ∃ path node, image.node path = some node ∧ member path node = m := by
  simp only [Image.members, List.mem_map, Prod.exists, Std.TreeMap.mem_toList_iff_getElem?_eq_some,
    Image.node]

/-- Every path of the image is the path of one member. -/
theorem length_members {calls : List Call} (h : build calls = .ok image) :
    image.members.length = (named calls).ncard := by
  have hset : named calls = (image.nodes.keys.toFinset : Set Text) := by
    ext dir
    rw [← (build_ok h).1 dir]
    simp [Image.node]
  rw [hset, Set.ncard_coe_finset, List.toFinset_card_of_nodup Std.TreeMap.nodup_keys, Image.members, List.length_map,
    Std.TreeMap.length_toList, Std.TreeMap.length_keys]

end SaeOS.Mkinitramfs
