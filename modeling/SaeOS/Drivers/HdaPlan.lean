import SaeOS.Drivers.Hda

/-!
# The outputs of a plan

Every pin that can be used and reaches an analog DAC gets one output, with a shortest path to its DAC, and
shares the DAC with an earlier one only when all that it reaches are taken.
-/

namespace SaeOS.Hda

open BreadthFirst

variable {codec : Codec} {node pin : Node} {w : Widget} {path : List Node}

/-! ## Widgets -/

theorem Codec.widget_of_mem (h : w ∈ codec.widgets) : codec.widget w.node = some w := by
  obtain ⟨found, hfound⟩ : ∃ found, codec.widget w.node = some found := by
    refine Option.ne_none_iff_exists'.mp fun hnone => ?_
    exact absurd (List.find?_eq_none.mp hnone w h) (by simp)
  have hmem := List.mem_of_find?_eq_some hfound
  have hnode : found.node = w.node := by
    simpa using List.find?_some hfound
  rw [hfound, List.inj_on_of_nodup_map codec.nodup hmem h hnode]

/-- A pin is not a DAC. -/
theorem role_of_outputDevice (h : w ∈ codec.widgets) (hdevice : w.outputDevice ≠ none) :
    codec.role w.node = .dead := by
  have hkind : w.kind = .pin := by
    by_contra hkind
    exact hdevice (if_pos (.inl hkind))
  rw [Codec.role, Codec.widget_of_mem h]
  simp only [hkind]

/-! ## Outputs -/

/-- The pin can reach the DAC through mixers and selectors. -/
def Reaches (codec : Codec) (pin dac : Node) : Prop :=
  codec.role dac = .goal ∧ ∃ path, Walk codec.connections codec.role pin path dac

/-- A connected path from the pin to a DAC, with no shorter one to that DAC. -/
structure OutputPath.Shortest (codec : Codec) (output : OutputPath) (pin dac : Node) : Prop where
  pin_eq : output.pin = some pin
  dac_eq : output.dac = some dac
  goal : codec.role dac = .goal
  walk : Walk codec.connections codec.role pin output.nodes dac
  nodup : output.nodes.Nodup
  shortest : ∀ other, Walk codec.connections codec.role pin other dac → output.nodes.length ≤ other.length

/-- The outputs chosen for some of the given pins, in their order. -/
structure Chosen (codec : Codec) (pins : List (Widget × PinDevice)) (outputs : List OutputPath) : Prop where
  sublist : (outputs.map fun output => (output.pin, output.device)).Sublist
    (pins.map fun pin => (some pin.1.node, pin.2))
  complete : ∀ pin ∈ pins, (∃ dac, Reaches codec pin.1.node dac) → ∃ output ∈ outputs, output.pin = some pin.1.node
  shortest : ∀ output ∈ outputs, ∃ pin dac, output.Shortest codec pin dac
  sharing : ∀ before output after, outputs = before ++ output :: after →
    (∃ other ∈ before, other.dac = output.dac) → ∀ pin dac, output.pin = some pin → Reaches codec pin dac →
      ∃ other ∈ before, other.dac = some dac

theorem taken_iff {outputs : List OutputPath} : taken outputs path ↔ ∃ output ∈ outputs, output.dac = path.getLast? := by
  simp [taken]

/-- A path is chosen if there is one; it has a DAC that is taken only when all DACs are. -/
theorem chosen_path {outputs : List OutputPath} {paths : List (List Node)} :
    match (paths.find? fun path => !taken outputs path).or paths.head? with
    | none => paths = []
    | some nodes => nodes ∈ paths ∧ (taken outputs nodes → ∀ path ∈ paths, taken outputs path) := by
  cases hfind : paths.find? fun path => !taken outputs path with
  | some nodes =>
    have hfree := List.find?_some hfind
    refine ⟨List.mem_of_find?_eq_some hfind, fun htaken => ?_⟩
    rw [htaken] at hfree
    cases hfree
  | none =>
    have hall : ∀ path ∈ paths, taken outputs path := fun path hmem => by
      simpa using List.find?_eq_none.mp hfind path hmem
    cases paths with
    | nil => rfl
    | cons first paths => exact ⟨List.mem_cons_self, fun _ => hall⟩

theorem Walk.head? {start : Node} (h : Walk codec.connections codec.role start path node) :
    path.head? = some start := by
  induction h with
  | single => rfl
  | snoc _ _ _ ih =>
    rw [List.head?_append, ih]
    rfl

theorem Chosen.add {pins : List (Widget × PinDevice)} {outputs : List OutputPath} (h : Chosen codec pins outputs)
    {pin : Widget × PinDevice} (hpin : pin.1 ∈ codec.widgets) (hdevice : pin.1.outputDevice ≠ none) :
    Chosen codec (pins ++ [pin]) (addOutput codec outputs pin) := by
  have hrole : codec.role pin.1.node ≠ .goal := by
    rw [role_of_outputDevice hpin hdevice]
    decide
  have hfinds : Finds codec.connections codec.role pin.1.node (pathsToDacs codec pin.1.node) := finds_paths hrole
  have hchosen := @chosen_path outputs (pathsToDacs codec pin.1.node)
  rw [addOutput]
  cases hpath : ((pathsToDacs codec pin.1.node).find? fun path => !taken outputs path).or
      (pathsToDacs codec pin.1.node).head? with
  | none =>
    rw [hpath] at hchosen
    -- no path is found, so the pin reaches no DAC
    refine ⟨?_, fun other hother hreaches => ?_, h.shortest, h.sharing⟩
    · rw [List.map_append]
      exact h.sublist.trans (List.sublist_append_left _ _)
    · obtain hother | hother := List.mem_append.mp hother
      · exact h.complete other hother hreaches
      · obtain ⟨dac, hgoal, path, hwalk⟩ := hreaches
        rw [List.mem_singleton.mp hother] at hwalk
        obtain ⟨found, hfound, -⟩ := hfinds.complete path dac hwalk hgoal
        rw [show pathsToDacs codec pin.1.node = [] from hchosen] at hfound
        cases hfound
  | some nodes =>
    rw [hpath] at hchosen
    obtain ⟨hmem, htaken⟩ := hchosen
    obtain ⟨hnodup, dac, hgoal, hwalk, hshortest⟩ := hfinds.shortest nodes hmem
    have hnew : OutputPath.Shortest codec ⟨pin.2, nodes⟩ pin.1.node dac :=
      ⟨Walk.head? hwalk, hwalk.getLast?, hgoal, hwalk, hnodup, hshortest⟩
    refine ⟨?_, fun other hother hreaches => ?_, fun output houtput => ?_, fun before output after heq hshared => ?_⟩
    · rw [List.map_append, List.map_append]
      refine h.sublist.append ?_
      rw [List.map_singleton, List.map_singleton, hnew.pin_eq]
    · obtain hother | hother := List.mem_append.mp hother
      · obtain ⟨output, houtput, hpin⟩ := h.complete other hother hreaches
        exact ⟨output, List.mem_append_left _ houtput, hpin⟩
      · rw [List.mem_singleton.mp hother]
        exact ⟨_, List.mem_append_right _ List.mem_cons_self, hnew.pin_eq⟩
    · obtain houtput | houtput := List.mem_append.mp houtput
      · exact h.shortest output houtput
      · rw [List.mem_singleton.mp houtput]
        exact ⟨_, _, hnew⟩
    · obtain rfl | ⟨after, last, rfl⟩ := after.eq_nil_or_concat
      · -- the output is the new one
        obtain ⟨rfl, hlast⟩ := List.append_inj' heq rfl
        obtain rfl := List.singleton_inj.mp hlast
        intro pin' dac' hpin' hreaches
        obtain rfl := Option.some.inj (hnew.pin_eq.symm.trans hpin')
        obtain ⟨hgoal', path, hwalk'⟩ := hreaches
        obtain ⟨found, hfound, hfoundWalk⟩ := hfinds.complete path dac' hwalk' hgoal'
        obtain ⟨other, hother, hdac⟩ := taken_iff.mp (htaken (taken_iff.mpr hshared) found hfound)
        exact ⟨other, hother, hdac.trans hfoundWalk.getLast?⟩
      · rw [List.concat_eq_append, ← List.cons_append, ← List.append_assoc] at heq
        exact h.sharing before output after (List.append_inj' heq rfl).1 hshared

theorem mem_pins {entry : Widget × PinDevice} (h : entry ∈ codec.pins) :
    entry.1 ∈ codec.widgets ∧ entry.1.outputDevice = some entry.2 := by
  rw [Codec.pins, List.mem_mergeSort, List.mem_filterMap] at h
  obtain ⟨widget, hmem, hdevice⟩ := h
  obtain ⟨device, hsome, rfl⟩ := Option.map_eq_some_iff.mp hdevice
  exact ⟨hmem, hsome⟩

/-- What `plan_outputs` chooses. -/
structure Planned (codec : Codec) (outputs : List OutputPath) : Prop where
  /-- Each output is that of a pin to use. -/
  eligible : ∀ output ∈ outputs, ∃ w ∈ codec.widgets, w.outputDevice = some output.device ∧ output.pin = some w.node
  /-- No pin has two. -/
  once : (outputs.map OutputPath.pin).Nodup
  /-- Each pin to use that reaches a DAC has one. -/
  complete : ∀ w ∈ codec.widgets, w.outputDevice ≠ none → (∃ dac, Reaches codec w.node dac) →
    ∃ output ∈ outputs, output.pin = some w.node
  shortest : ∀ output ∈ outputs, ∃ pin dac, output.Shortest codec pin dac
  sharing : ∀ before output after, outputs = before ++ output :: after →
    (∃ other ∈ before, other.dac = output.dac) → ∀ pin dac, output.pin = some pin → Reaches codec pin dac →
      ∃ other ∈ before, other.dac = some dac

theorem chosen_outputs (codec : Codec) : Chosen codec codec.pins codec.outputs := by
  have hfold : ∀ pins : List (Widget × PinDevice), pins <+: codec.pins →
      Chosen codec pins (pins.foldl (addOutput codec) []) := by
    intro pins
    induction pins using List.reverseRecOn with
    | nil =>
      intro _
      exact ⟨List.Sublist.refl _, (by simp), (by simp), fun before output after heq => by simp at heq⟩
    | append_singleton pins pin ih =>
      intro hinitial
      obtain ⟨hmem, hdevice⟩ := mem_pins (hinitial.subset (List.mem_append_right _ List.mem_cons_self))
      rw [List.foldl_append]
      exact (ih ((List.prefix_append _ _).trans hinitial)).add hmem (by rw [hdevice]; exact Option.some_ne_none _)
  exact hfold codec.pins List.prefix_rfl

theorem pins_nodup (codec : Codec) : (codec.pins.map fun entry => entry.1.node).Nodup := by
  have hperm := (List.mergeSort_perm
    (codec.widgets.filterMap fun widget => widget.outputDevice.map fun device => (widget, device))
    fun a b => a.1.before b.1).map fun entry => entry.1.node
  refine hperm.nodup_iff.mpr ?_
  have hsublist (widgets : List Widget) :
      ((widgets.filterMap fun widget => widget.outputDevice.map fun device => (widget, device)).map
        fun entry => entry.1.node).Sublist (widgets.map Widget.node) := by
    induction widgets with
    | nil => exact List.Sublist.refl _
    | cons widget widgets ih =>
      rw [List.filterMap_cons]
      cases widget.outputDevice with
      | none => exact ih.cons _
      | some device => exact ih.cons_cons _
  exact codec.nodup.sublist (hsublist codec.widgets)

theorem planned_outputs (codec : Codec) : Planned codec codec.outputs := by
  have h := chosen_outputs codec
  refine ⟨fun output houtput => ?_, ?_, fun w hmem hdevice hreaches => ?_, h.shortest, h.sharing⟩
  · have hmem := h.sublist.subset (List.mem_map_of_mem houtput)
    obtain ⟨entry, hentry, heq⟩ := List.mem_map.mp hmem
    obtain ⟨hwidget, hdevice⟩ := mem_pins hentry
    obtain ⟨hpin, hsame⟩ := Prod.mk.inj heq
    exact ⟨entry.1, hwidget, hsame ▸ hdevice, hpin.symm⟩
  · have hpins : (codec.outputs.map OutputPath.pin).Sublist (codec.pins.map fun entry => some entry.1.node) := by
      have hfirst := h.sublist.map Prod.fst
      rwa [List.map_map, List.map_map] at hfirst
    refine List.Nodup.sublist hpins ?_
    have hnodup := (pins_nodup codec).map (Option.some_injective Node)
    rwa [List.map_map] at hnodup
  · obtain ⟨device, hsome⟩ := Option.ne_none_iff_exists'.mp hdevice
    have hentry : (w, device) ∈ codec.pins := by
      rw [Codec.pins, List.mem_mergeSort, List.mem_filterMap]
      exact ⟨w, hmem, by rw [hsome]; rfl⟩
    exact h.complete _ hentry hreaches

end SaeOS.Hda
