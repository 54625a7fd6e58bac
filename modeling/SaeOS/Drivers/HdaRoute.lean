import SaeOS.Drivers.HdaPlan

/-!
# The route from a planned pin

What the widgets of a codec do with the verbs they are sent, and where the selected inputs lead. The verbs of an
output set up the widgets on its path and no others, so that a route of an earlier output either is still there
or meets the later path, and follows it to that DAC.
-/

namespace SaeOS.Hda

open BreadthFirst

/-! ## Widgets and verbs -/

/-- What a widget has been told: the connection it takes, its power, and its amps. -/
structure Setting where
  select : ℕ
  power : Bool
  outMuted : Bool
  inMuted : ℕ → Bool

/-- What a verb does to the widget it is sent to. -/
def Setting.apply (s : Setting) (verb : UInt32) : Setting :=
  if verb >>> 8 = setConnectionSelect.toUInt32 then { s with select := (verb &&& 0xff).toNat }
  else if verb >>> 8 = setPowerState.toUInt32 then { s with power := verb &&& 0xff = 0 }
  else if verb >>> 16 = setAmpGainMute.toUInt32 then
    let mute : Bool := verb &&& 0x80 ≠ 0
    { s with
      outMuted := if verb &&& 0x8000 ≠ 0 then mute else s.outMuted
      inMuted := if verb &&& 0x4000 ≠ 0 then Function.update s.inMuted ((verb >>> 8) &&& 0xf).toNat mute
        else s.inMuted }
  else s

/-- Each widget has its own setting. -/
abbrev Settings := Node → Setting

def Settings.send (s : Settings) (send : Send) : Settings :=
  Function.update s send.1 ((s send.1).apply send.2)

def Settings.run (s : Settings) (sends : List Send) : Settings :=
  sends.foldl Settings.send s

/-- Powered, and its output amplifier unmuted, where it has them. -/
def Widget.Works (w : Widget) (s : Setting) : Prop :=
  (w.caps &&& capsPower ≠ 0 → s.power = true) ∧ (w.caps &&& capsOutAmp ≠ 0 → s.outMuted = false)

/-- An input that the widget passes on: an unmuted one of a mixer, or the selected one. -/
def Widget.Feeds (w : Widget) (s : Setting) (upstream : Node) : Prop :=
  match w.kind with
  | .mixer => ∃ index, w.connections[index]? = some upstream ∧ (w.caps &&& capsInAmp ≠ 0 → s.inMuted index = false)
  | _ => w.connections[if 1 < w.connections.length then s.select else 0]? = some upstream

/-- A route from the node through widgets that work to one of the DACs. -/
inductive Leads (codec : Codec) (s : Settings) (dacs : List Node) : Node → Prop
  | dac {node : Node} {w : Widget} (hwidget : codec.widget node = some w) (hworks : w.Works (s node))
    (hdac : node ∈ dacs) : Leads codec s dacs node
  | step {node upstream : Node} {w : Widget} (hwidget : codec.widget node = some w) (hworks : w.Works (s node))
    (hfeeds : w.Feeds (s node) upstream) (hupstream : Leads codec s dacs upstream) : Leads codec s dacs node

variable {codec : Codec} {s : Setting} {settings : Settings} {node upstream : Node} {w : Widget}
variable {sends : List Send} {nodes : List Node} {dacs : List Node}

/-! ## What the verbs do -/

theorem apply_select (payload : UInt8) :
    s.apply (verb12 setConnectionSelect payload) = { s with select := payload.toNat } := by
  have hverb : ∀ payload : UInt8, verb12 setConnectionSelect payload >>> 8 = setConnectionSelect.toUInt32 ∧
      (verb12 setConnectionSelect payload &&& 0xff).toNat = payload.toNat := by
    decide +kernel
  rw [Setting.apply, if_pos (hverb payload).1, (hverb payload).2]

theorem apply_power : s.apply (verb12 setPowerState 0) = { s with power := true } := by
  rw [Setting.apply, if_neg (by decide), if_pos (by decide)]
  rfl

theorem apply_pinControl (payload : UInt8) : s.apply (verb12 setPinControl payload) = s := by
  have hverb : ∀ payload : UInt8, verb12 setPinControl payload >>> 8 ≠ setConnectionSelect.toUInt32 ∧
      verb12 setPinControl payload >>> 8 ≠ setPowerState.toUInt32 ∧
        verb12 setPinControl payload >>> 16 ≠ setAmpGainMute.toUInt32 := by
    decide +kernel
  obtain ⟨hselect, hpower, hamp⟩ := hverb payload
  rw [Setting.apply, if_neg hselect, if_neg hpower, if_neg hamp]

theorem apply_eapd : s.apply (verb12 setEapd eapdEnable) = s := by
  rw [Setting.apply, if_neg (by decide), if_neg (by decide), if_neg (by decide)]

theorem apply_ampOut (gain : UInt8) : s.apply (amp true 0 gain false) = { s with outMuted := false } := by
  have hverb : ∀ gain : UInt8, amp true 0 gain false >>> 8 ≠ setConnectionSelect.toUInt32 ∧
      amp true 0 gain false >>> 8 ≠ setPowerState.toUInt32 ∧
        amp true 0 gain false >>> 16 = setAmpGainMute.toUInt32 ∧ amp true 0 gain false &&& 0x80 = 0 ∧
          amp true 0 gain false &&& 0x8000 ≠ 0 ∧ amp true 0 gain false &&& 0x4000 = 0 := by
    decide +kernel
  obtain ⟨hselect, hpower, hamp, hmute, hout, hin⟩ := hverb gain
  rw [Setting.apply, if_neg hselect, if_neg hpower, if_pos hamp]
  simp [hmute, hout, hin]

theorem apply_ampIn {index : ℕ} (hindex : index < 16) (gain : UInt8) :
    s.apply (amp false (UInt8.ofNat index) gain false) =
      { s with inMuted := Function.update s.inMuted index false } := by
  have hverb : ∀ index : Fin 16, ∀ gain : UInt8,
      amp false (UInt8.ofNat index) gain false >>> 8 ≠ setConnectionSelect.toUInt32 ∧
        amp false (UInt8.ofNat index) gain false >>> 8 ≠ setPowerState.toUInt32 ∧
          amp false (UInt8.ofNat index) gain false >>> 16 = setAmpGainMute.toUInt32 ∧
            amp false (UInt8.ofNat index) gain false &&& 0x80 = 0 ∧
              amp false (UInt8.ofNat index) gain false &&& 0x8000 = 0 ∧
                amp false (UInt8.ofNat index) gain false &&& 0x4000 ≠ 0 ∧
                  ((amp false (UInt8.ofNat index) gain false >>> 8) &&& 0xf).toNat = index := by
    decide +kernel
  obtain ⟨hselect, hpower, hamp, hmute, hout, hin, hindex⟩ := hverb ⟨index, hindex⟩ gain
  rw [Setting.apply, if_neg hselect, if_neg hpower, if_pos hamp]
  dsimp only at hmute hout hin hindex
  simp [hmute, hout, hin, hindex]

/-! ## What the sends of an output do -/

theorem run_append (settings : Settings) (sends sends' : List Send) :
    settings.run (sends ++ sends') = (settings.run sends).run sends' :=
  List.foldl_append

theorem run_of_forall_ne (h : ∀ send ∈ sends, send.1 ≠ node) : settings.run sends node = settings node := by
  induction sends generalizing settings with
  | nil => rfl
  | cons send sends ih =>
    have hfirst : settings.send send node = settings node :=
      Function.update_of_ne (h send List.mem_cons_self).symm _ _
    exact (ih (List.forall_mem_of_forall_mem_cons h)).trans hfirst

/-- Verbs sent to one node. -/
theorem run_of_forall_eq (h : ∀ send ∈ sends, send.1 = node) :
    settings.run sends node = (sends.map Prod.snd).foldl Setting.apply (settings node) := by
  induction sends generalizing settings with
  | nil => rfl
  | cons send sends ih =>
    have hfirst : settings.send send node = (settings node).apply send.2 := by
      rw [Settings.send, h send List.mem_cons_self, Function.update_self]
    refine (ih (List.forall_mem_of_forall_mem_cons h)).trans ?_
    rw [hfirst]
    rfl

theorem fst_selectSends {index : ℕ} {send : Send} (h : send ∈ selectSends w node index) : send.1 = node := by
  unfold selectSends at h
  split at h
  all_goals
    split_ifs at h
    · exact congrArg Prod.fst (List.mem_singleton.mp h)
    · cases h

theorem fst_nodeSends {next : Option Node} {send : Send} (h : send ∈ nodeSends codec node next) :
    send.1 = node := by
  unfold nodeSends at h
  split at h
  · cases h
  · rw [List.mem_append, List.mem_append] at h
    obtain (h | h) | h := h
    · split_ifs at h
      · exact congrArg Prod.fst (List.mem_singleton.mp h)
      · cases h
    · split at h
      · cases h
      · exact fst_selectSends h
    · split_ifs at h
      · exact congrArg Prod.fst (List.mem_singleton.mp h)
      · cases h

theorem fst_pathSends {send : Send} (h : send ∈ pathSends codec nodes) : send.1 ∈ nodes := by
  induction nodes with
  | nil => cases h
  | cons node nodes ih =>
    obtain h | h := List.mem_append.mp h
    · rw [fst_nodeSends h]
      exact List.mem_cons_self
    · exact List.mem_cons_of_mem _ (ih h)

/-- The verbs for a path without repetitions set up each node with its own verbs. -/
theorem run_pathSends {before after : List Node} (hnodup : nodes.Nodup) (h : nodes = before ++ node :: after) :
    settings.run (pathSends codec nodes) node = settings.run (nodeSends codec node after.head?) node := by
  induction nodes generalizing before settings with
  | nil => simp at h
  | cons first nodes ih =>
    obtain ⟨hfirst, hrest⟩ := List.nodup_cons.mp hnodup
    rw [pathSends, run_append]
    cases before with
    | nil =>
      obtain ⟨rfl, rfl⟩ := List.cons.inj h
      refine run_of_forall_ne fun send hsend => ?_
      rintro rfl
      exact hfirst (fst_pathSends hsend)
    | cons _ before =>
      obtain ⟨rfl, hnodes⟩ := List.cons.inj h
      have hne : first ≠ node := by
        rintro rfl
        exact hfirst (hnodes ▸ List.mem_append_right _ List.mem_cons_self)
      have hsame : settings.run (nodeSends codec first nodes.head?) node = settings node :=
        run_of_forall_ne fun send hsend => by rw [fst_nodeSends hsend]; exact hne
      rw [ih hrest hnodes]
      have hverbs := fun settings : Settings => @run_of_forall_eq settings node
        (nodeSends codec node after.head?) fun _ => fst_nodeSends
      rw [hverbs, hverbs, hsame]

theorem send_of_apply_eq {verb : UInt32} (h : ∀ s : Setting, s.apply verb = s) :
    settings.send (node, verb) = settings := by
  rw [Settings.send, h, Function.update_eq_self]

/-- The verbs for the pin leave the route as it is. -/
theorem run_pinSends (output : OutputPath) : settings.run (pinSends codec output) = settings := by
  unfold pinSends
  cases output.pin with
  | none => rfl
  | some pin =>
    dsimp only
    cases codec.widget pin with
    | none => rfl
    | some widget =>
      dsimp only
      generalize (if output.device = .headphone ∧ widget.pinCaps &&& pinHeadphoneDrive ≠ 0 then
        pinControlOut ||| pinControlHeadphone else pinControlOut) = control
      rw [Settings.run, List.foldl_cons, send_of_apply_eq fun s => @apply_pinControl s control]
      split_ifs
      · rw [List.foldl_cons, send_of_apply_eq fun s => @apply_eapd s]
        rfl
      · rfl

theorem run_singleton (verb : UInt32) : settings.run [(node, verb)] node = (settings node).apply verb :=
  Function.update_self ..

/-- What a widget has been told when it takes the input with the given index. -/
def Widget.selected (w : Widget) (index : ℕ) (s : Setting) : Setting :=
  match w.kind with
  | .mixer => if w.caps &&& capsInAmp ≠ 0 then { s with inMuted := Function.update s.inMuted index false } else s
  | _ => if 1 < w.connections.length then { s with select := index } else s

/-- What it has been told when it takes the input from a node, if that is one of its inputs. -/
def Widget.fed (w : Widget) (next : Option Node) (s : Setting) : Setting :=
  match next.bind fun upstream => w.connections.findIdx? (· = upstream) with
  | none => s
  | some index => w.selected index s

def Widget.powered (w : Widget) (s : Setting) : Setting :=
  if w.caps &&& capsPower ≠ 0 then { s with power := true } else s

def Widget.unmuted (w : Widget) (s : Setting) : Setting :=
  if w.caps &&& capsOutAmp ≠ 0 then { s with outMuted := false } else s

/-- The index of an input fits its verb: four bits for a mixer's amp, eight for a select. -/
def Widget.Fits (w : Widget) (index : ℕ) : Prop :=
  match w.kind with
  | .mixer => index < 16
  | _ => index < 256

theorem run_selectSends {index : ℕ} (hindex : w.Fits index) :
    settings.run (selectSends w node index) node = w.selected index (settings node) := by
  have hselect (hindex : index < 256) : settings.run
      (if 1 < w.connections.length then [(node, verb12 setConnectionSelect (UInt8.ofNat index))] else []) node =
        if 1 < w.connections.length then { settings node with select := index } else settings node := by
    split_ifs
    · rw [run_singleton, apply_select, UInt8.toNat_ofNat', Nat.mod_eq_of_lt hindex]
    · rfl
  unfold Widget.Fits at hindex
  unfold selectSends Widget.selected
  cases hkind : w.kind with
  | mixer =>
    rw [hkind] at hindex
    dsimp only
    split_ifs
    · rw [run_singleton, apply_ampIn hindex]
    · rfl
  | _ =>
    rw [hkind] at hindex
    exact hselect hindex

/-- The verbs for a node, in their order. -/
theorem run_nodeSends (hwidget : codec.widget node = some w) (next : Option Node)
    (hfits : ∀ index, (next.bind fun upstream => w.connections.findIdx? (· = upstream)) = some index → w.Fits index) :
    settings.run (nodeSends codec node next) node = w.unmuted (w.fed next (w.powered (settings node))) := by
  have hpower : settings.run (if w.caps &&& capsPower ≠ 0 then [(node, verb12 setPowerState 0)] else []) node =
      w.powered (settings node) := by
    unfold Widget.powered
    split_ifs
    · rw [run_singleton, apply_power]
    · rfl
  have hout (settings : Settings) :
      settings.run (if w.caps &&& capsOutAmp ≠ 0 then [(node, amp true 0 (w.ampOut &&& 0x7f).toUInt8 false)] else [])
        node = w.unmuted (settings node) := by
    unfold Widget.unmuted
    split_ifs
    · rw [run_singleton, apply_ampOut]
    · rfl
  rw [nodeSends, hwidget]
  dsimp only
  rw [run_append, run_append, hout, Widget.fed]
  cases hindex : next.bind fun upstream => w.connections.findIdx? (· = upstream) with
  | none => exact congrArg w.unmuted hpower
  | some index =>
    dsimp only
    rw [run_selectSends (hfits index hindex), hpower]

theorem power_fed (next : Option Node) (s : Setting) : (w.fed next s).power = s.power := by
  unfold Widget.fed
  split
  · rfl
  · unfold Widget.selected
    split <;> split_ifs <;> rfl

/-- The verbs for a node power it and unmute its output, whatever feeds it. -/
theorem works_nodeSends (hwidget : codec.widget node = some w) (next : Option Node)
    (hfits : ∀ index, (next.bind fun upstream => w.connections.findIdx? (· = upstream)) = some index → w.Fits index) :
    w.Works (settings.run (nodeSends codec node next) node) := by
  rw [run_nodeSends hwidget next hfits]
  constructor
  · intro hcaps
    have hpower : (w.fed next (w.powered (settings node))).power = true := by
      rw [power_fed, Widget.powered, if_pos hcaps]
    unfold Widget.unmuted
    split_ifs
    · exact hpower
    · exact hpower
  · intro hcaps
    rw [Widget.unmuted, if_pos hcaps]

/-- The verbs for a node make it pass on the widget that feeds it along the path. -/
theorem feeds_nodeSends (hwidget : codec.widget node = some w) (hmem : upstream ∈ w.connections)
    (hfits : ∀ index, w.connections.findIdx? (· = upstream) = some index → w.Fits index) :
    w.Feeds (settings.run (nodeSends codec node (some upstream)) node) upstream := by
  obtain ⟨index, hindex⟩ : ∃ index, w.connections.findIdx? (· = upstream) = some index := by
    rw [← Option.isSome_iff_exists, List.findIdx?_isSome, List.any_eq_true]
    exact ⟨upstream, hmem, by simp⟩
  have hentry : w.connections[index]? = some upstream := by
    obtain ⟨hlt, hfound, -⟩ := List.findIdx?_eq_some_iff_getElem.mp hindex
    rw [List.getElem?_eq_getElem hlt, of_decide_eq_true hfound]
  have hfeeds (s : Setting) : w.Feeds (w.selected index s) upstream := by
    unfold Widget.Feeds Widget.selected
    cases w.kind with
    | mixer =>
      refine ⟨index, hentry, fun hamp => ?_⟩
      rw [if_pos hamp]
      exact Function.update_self ..
    | _ =>
      dsimp only
      split_ifs with hseveral
      · exact hentry
      · -- the only connection is the one
        have hlt := (List.getElem?_eq_some_iff.mp hentry).1
        rwa [show index = 0 by omega] at hentry
  rw [run_nodeSends hwidget (some upstream) hfits, Widget.fed, Option.bind_some, hindex]
  unfold Widget.unmuted
  split_ifs
  · exact hfeeds _
  · exact hfeeds _

/-! ## Routes -/

/-- An output as it is planned: along its path, every node is fed by the next one, with an index that fits its
verb, up to one of the DACs. -/
structure OutputPath.Wired (codec : Codec) (dacs : List Node) (output : OutputPath) : Prop where
  nodup : output.nodes.Nodup
  fed : ∀ before node upstream after, output.nodes = before ++ node :: upstream :: after →
    ∃ w, codec.widget node = some w ∧ upstream ∈ w.connections ∧
      ∀ index, w.connections.findIdx? (· = upstream) = some index → w.Fits index
  ends : ∀ before node, output.nodes = before ++ [node] → (∃ w, codec.widget node = some w) ∧ node ∈ dacs

/-- The verbs of an output. -/
def outputSends (codec : Codec) (output : OutputPath) : List Send :=
  pathSends codec output.nodes ++ pinSends codec output

theorem run_outputSends (output : OutputPath) :
    settings.run (outputSends codec output) = settings.run (pathSends codec output.nodes) := by
  rw [outputSends, run_append, run_pinSends]

/-- Behind the verbs of an output, all of its path leads to its DAC. -/
theorem leads_path {output : OutputPath} (h : output.Wired codec dacs) {before after : List Node}
    (hnodes : output.nodes = before ++ node :: after) :
    Leads codec (settings.run (outputSends codec output)) dacs node := by
  rw [run_outputSends]
  induction after generalizing before node with
  | nil =>
    obtain ⟨⟨w, hwidget⟩, hdac⟩ := h.ends before node hnodes
    refine .dac hwidget ?_ hdac
    rw [run_pathSends h.nodup hnodes]
    exact works_nodeSends hwidget none (by simp)
  | cons upstream after ih =>
    obtain ⟨w, hwidget, hmem, hfits⟩ := h.fed before node upstream after hnodes
    have hupstream := @ih upstream (before ++ [node]) (by rw [hnodes, List.append_assoc, List.singleton_append])
    refine .step hwidget ?_ ?_ hupstream
    · rw [run_pathSends h.nodup hnodes]
      exact works_nodeSends hwidget (some upstream) hfits
    · rw [run_pathSends h.nodup hnodes]
      exact feeds_nodeSends hwidget hmem hfits

/-- A route either avoids the path of another output or follows it from where they meet. -/
theorem leads_keep {output : OutputPath} (h : output.Wired codec dacs) (hleads : Leads codec settings dacs node) :
    Leads codec (settings.run (outputSends codec output)) dacs node := by
  have hother {node : Node} (hnode : node ∉ output.nodes) :
      settings.run (outputSends codec output) node = settings node := by
    rw [run_outputSends]
    refine run_of_forall_ne fun send hsend => ?_
    rintro rfl
    exact hnode (fst_pathSends hsend)
  -- induction on the route from its end
  induction hleads with
  | @dac node w hwidget hworks hdac =>
    by_cases hnode : node ∈ output.nodes
    · obtain ⟨before, after, hnodes⟩ := List.append_of_mem hnode
      exact leads_path h hnodes
    · exact .dac hwidget (by rwa [hother hnode]) hdac
  | @step node upstream w hwidget hworks hfeeds hupstream ih =>
    by_cases hnode : node ∈ output.nodes
    · obtain ⟨before, after, hnodes⟩ := List.append_of_mem hnode
      exact leads_path h hnodes
    · exact .step hwidget (by rwa [hother hnode]) (by rwa [hother hnode]) ih

/-- Behind the verbs of all outputs, every node of every path leads to a DAC. -/
theorem leads_outputs {outputs : List OutputPath} (h : ∀ output ∈ outputs, output.Wired codec dacs) :
    ∀ output ∈ outputs, ∀ node ∈ output.nodes,
      Leads codec (settings.run (outputs.flatMap (outputSends codec))) dacs node := by
  induction outputs using List.reverseRecOn with
  | nil => simp
  | append_singleton outputs last ih =>
    intro output houtput node hnode
    have hlast := h last (List.mem_append_right _ List.mem_cons_self)
    rw [List.flatMap_append, List.flatMap_singleton, run_append]
    obtain houtput | houtput := List.mem_append.mp houtput
    · exact leads_keep hlast (ih (fun output hmem => h output (List.mem_append_left _ hmem)) output houtput node hnode)
    · rw [List.mem_singleton.mp houtput] at hnode
      obtain ⟨before, after, hnodes⟩ := List.append_of_mem hnode
      exact leads_path hlast hnodes

/-! ## Plans -/

/-- A walk goes along connections. -/
theorem walk_next {start last : Node} (h : Walk codec.connections codec.role start nodes last)
    {before after : List Node} (hnodes : nodes = before ++ node :: upstream :: after) :
    upstream ∈ codec.connections node := by
  induction h generalizing after with
  | single =>
    have hlength := congrArg List.length hnodes
    simp only [List.length_append, List.length_cons, List.length_nil] at hlength
    omega
  | @snoc path last source walk _ hsource ih =>
    obtain rfl | ⟨after, final, rfl⟩ := after.eq_nil_or_concat
    · -- the last step
      have hlast : path ++ [source] = (before ++ [node]) ++ [upstream] := by
        rw [hnodes, List.append_assoc, List.singleton_append]
      obtain ⟨rfl, hsame⟩ := List.append_inj' hlast rfl
      obtain rfl := List.singleton_inj.mp hsame
      have hnode := walk.getLast?
      rw [List.getLast?_concat] at hnode
      rwa [Option.some.inj hnode]
    · rw [List.concat_eq_append, ← List.cons_append, ← List.cons_append, ← List.append_assoc] at hnodes
      exact ih (List.append_inj' hnodes rfl).1

theorem widget_of_connection (h : upstream ∈ codec.connections node) :
    ∃ w, codec.widget node = some w ∧ upstream ∈ w.connections := by
  unfold Codec.connections at h
  split at h
  · cases h
  · exact ⟨_, ‹_›, h⟩

theorem widget_of_goal (h : codec.role node = .goal) : ∃ w, codec.widget node = some w := by
  unfold Codec.role at h
  split at h
  · cases h
  · exact ⟨_, ‹_›⟩

/-- Where a pin or selector on a planned path takes the next node, its index fits the eight bits of the verb. -/
def Selectable (codec : Codec) (plan : OutputPlan) : Prop :=
  ∀ output ∈ plan.outputs, ∀ before node upstream after w, output.nodes = before ++ node :: upstream :: after →
    codec.widget node = some w → w.kind ≠ .mixer →
      ∀ index, w.connections.findIdx? (· = upstream) = some index → index < 256

theorem planOutputs_ok {plan : OutputPlan} (h : planOutputs codec = .ok plan) :
    plan.outputs = codec.outputs ∧ plan.functionGroup = codec.functionGroup ∧
      ∀ dac, dac ∈ plan.dacs ↔ ∃ output ∈ plan.outputs, output.dac = some dac := by
  unfold planOutputs at h
  dsimp only at h
  split_ifs at h
  cases h
  refine ⟨rfl, rfl, fun dac => ?_⟩
  rw [List.mem_dedup, List.mem_mergeSort, List.mem_filterMap]

theorem planOutputs_noOutputs (codec : Codec) :
    planOutputs codec = .error .noOutputs ↔
      ∀ w ∈ codec.widgets, w.outputDevice ≠ none → ¬ ∃ dac, Reaches codec w.node dac := by
  have hplanned := planned_outputs codec
  have hnone : planOutputs codec = .error .noOutputs ↔ codec.outputs = [] := by
    unfold planOutputs
    dsimp only
    split_ifs with houtputs
    · exact iff_of_true rfl houtputs
    · exact iff_of_false (by simp) houtputs
    · exact iff_of_false (by simp) houtputs
    · exact iff_of_false (by simp) houtputs
  rw [hnone]
  constructor
  · intro houtputs w hmem hdevice hreaches
    obtain ⟨output, houtput, -⟩ := hplanned.complete w hmem hdevice hreaches
    rw [houtputs] at houtput
    cases houtput
  · intro hall
    refine List.eq_nil_iff_forall_not_mem.mpr fun output houtput => ?_
    obtain ⟨w, hmem, hdevice, hpin⟩ := hplanned.eligible output houtput
    obtain ⟨pin, dac, hshortest⟩ := hplanned.shortest output houtput
    obtain rfl := Option.some.inj (hpin.symm.trans hshortest.pin_eq)
    exact hall w hmem (by rw [hdevice]; exact Option.some_ne_none _)
      ⟨dac, hshortest.goal, output.nodes, hshortest.walk⟩

/-- What a codec's outputs are to be: one for each pin that reaches a DAC, and behind the verbs for all of them,
whatever the widgets were told before, a route from each pin to a DAC of the plan. -/
structure Routed (codec : Codec) (plan : OutputPlan) : Prop where
  planned : Planned codec plan.outputs
  dacs : ∀ dac, dac ∈ plan.dacs ↔ ∃ output ∈ plan.outputs, output.dac = some dac
  leads : ∀ (settings : Settings), ∀ output ∈ plan.outputs, ∀ pin, output.pin = some pin →
    Leads codec (settings.run (configure codec plan)) plan.dacs pin

/-- There is no plan for the outputs when no pin to use reaches a DAC; a plan's pins all have their routes, if
the inputs on its paths can be selected. -/
theorem plan_routed (codec : Codec)
    (hmixers : ∀ w ∈ codec.widgets, w.kind = .mixer → w.connections.length ≤ 16) :
    (planOutputs codec = .error .noOutputs ↔
      ∀ w ∈ codec.widgets, w.outputDevice ≠ none → ¬ ∃ dac, Reaches codec w.node dac) ∧
    ∀ plan, planOutputs codec = .ok plan → Selectable codec plan → Routed codec plan := by
  refine ⟨planOutputs_noOutputs codec, fun plan hplan hselectable => ?_⟩
  obtain ⟨houtputs, -, hdacs⟩ := planOutputs_ok hplan
  have hplanned : Planned codec plan.outputs := houtputs ▸ planned_outputs codec
  refine ⟨hplanned, hdacs, fun settings output houtput pin hpin => ?_⟩
  have hwired : ∀ output ∈ plan.outputs, output.Wired codec plan.dacs := by
    intro output houtput
    obtain ⟨pin, dac, hshortest⟩ := hplanned.shortest output houtput
    refine ⟨hshortest.nodup, fun before node upstream after hnodes => ?_, fun before node hnodes => ?_⟩
    · obtain ⟨w, hwidget, hmem⟩ := widget_of_connection (walk_next hshortest.walk hnodes)
      refine ⟨w, hwidget, hmem, fun index hindex => ?_⟩
      unfold Widget.Fits
      by_cases hkind : w.kind = .mixer
      · have hlt := (List.findIdx?_eq_some_iff_getElem.mp hindex).1
        simp only [hkind]
        exact hlt.trans_le (hmixers w (List.mem_of_find?_eq_some hwidget) hkind)
      · have hlt := hselectable output houtput before node upstream after w hnodes hwidget hkind index hindex
        split
        · exact absurd ‹_› hkind
        · exact hlt
    · have hlast := hshortest.walk.getLast?
      rw [hnodes, List.getLast?_concat] at hlast
      obtain rfl := Option.some.inj hlast
      exact ⟨widget_of_goal hshortest.goal, (hdacs _).mpr ⟨output, houtput, hshortest.dac_eq⟩⟩
  have hnode : pin ∈ output.nodes := List.mem_of_mem_head? hpin
  exact leads_outputs hwired output houtput pin hnode

/-- Two pins behind one selector, one of them through a mixer that feeds the selector as well. The selector also
lists a missing widget and two DACs. -/
def selectorCodec : Codec where
  address := 0
  vendor := 0
  functionGroup := 1
  widgets := [
    ⟨2, .pin, 0x400100, pinOutput, 0, 0, 0, 0x20040, [4]⟩,
    ⟨3, .output, 0, 0, 0, 0, 0, 0x20040, []⟩,
    ⟨4, .mixer, 0x200102, 0, 0, 0, 0, 0x20040, [5]⟩,
    ⟨5, .selector, 0x300100, 0, 0, 0, 0, 0x20040, [9, 3, 4, 7]⟩,
    ⟨6, .pin, 0x400100, pinOutput, 0x200000, 0, 0, 0x20040, [5]⟩,
    ⟨7, .output, 0, 0, 0, 0, 0, 0x20040, []⟩]
  nodup := by decide

/-- The path of the second pin switches the selector over, and both pins end at its DAC. -/
theorem plan_routed_selectorCodec :
    let plan : OutputPlan := ⟨0, 0, 1, [⟨.lineOut, [2, 4, 5, 3]⟩, ⟨.headphone, [6, 5, 7]⟩], [3, 7], [48000]⟩
    planOutputs selectorCodec = .ok plan ∧ Routed selectorCodec plan ∧
      ((Settings.run (fun _ => ⟨0, true, false, fun _ => false⟩) (configure selectorCodec plan)) 5).select = 3 := by
  intro plan
  -- a sorted list stays as it is
  have houtputs : selectorCodec.outputs = plan.outputs := by
    rw [Codec.outputs, Codec.pins, List.mergeSort_of_pairwise (by decide +kernel)]
    decide +kernel
  have hplan : planOutputs selectorCodec = .ok plan := by
    unfold planOutputs
    rw [houtputs]
    dsimp only
    rw [show plan.outputs.filterMap OutputPath.dac = [3, 7] from rfl,
      List.mergeSort_of_pairwise (by decide)]
    decide +kernel
  have hindex : ∀ w ∈ selectorCodec.widgets, w.connections.length ≤ 16 := by decide +kernel
  refine ⟨hplan, (plan_routed selectorCodec fun w hmem _ => hindex w hmem).2 _ hplan ?_, by decide +kernel⟩
  intro output _ before node upstream after w _ hwidget _ index hfound
  have hlt := (List.findIdx?_eq_some_iff_getElem.mp hfound).1
  have hle := hindex w (List.mem_of_find?_eq_some hwidget)
  omega

/-- A pin whose connection list runs three times through nodes that the codec does not have before it names the
DAC, as ranges of a hardware list do. -/
def rangesCodec : Codec where
  address := 0
  vendor := 0
  functionGroup := 1
  widgets := [
    ⟨2, .pin, 0x400100, pinOutput, 0, 0, 0, 0x20040,
      let range := (List.range' 4 100).map UInt8.ofNat
      range ++ range ++ range ++ [3]⟩,
    ⟨3, .output, 0, 0, 0, 0, 0, 0x20040, []⟩]
  nodup := by decide

def rangesPlan : OutputPlan :=
  ⟨0, 0, 1, [⟨.lineOut, [2, 3]⟩], [3], [48000]⟩

theorem planOutputs_rangesCodec : planOutputs rangesCodec = .ok rangesPlan := by
  decide +kernel

/-- The DAC is connection 300 of the pin, and what the verb selects is connection 44. -/
theorem plan_not_routed : ¬ ∀ codec : Codec,
    (∀ w ∈ codec.widgets, w.kind = .mixer → w.connections.length ≤ 16) →
      (planOutputs codec = .error .noOutputs ↔
        ∀ w ∈ codec.widgets, w.outputDevice ≠ none → ¬ ∃ dac, Reaches codec w.node dac) ∧
      ∀ plan, planOutputs codec = .ok plan → Routed codec plan := by
  intro hall
  have hrouted := (hall rangesCodec (by decide +kernel)).2 rangesPlan planOutputs_rangesCodec
  let start : Setting := ⟨0, true, false, fun _ => false⟩
  have hleads := hrouted.leads (fun _ => start) ⟨.lineOut, [2, 3]⟩ (by decide) 2 rfl
  have hselect : ((Settings.run (fun _ => start) (configure rangesCodec rangesPlan)) 2).select = 44 := by
    decide +kernel
  have hpin : (rangesCodec.widget 2).all fun w =>
      w.kind = .pin ∧ 1 < w.connections.length ∧ w.connections[44]? = some 48 := by
    decide +kernel
  generalize Settings.run (fun _ => start) (configure rangesCodec rangesPlan) = settings at hleads hselect
  cases hleads with
  | dac _ _ hdac => exact absurd hdac (by decide)
  | @step _ upstream w hwidget _ hfeeds hupstream =>
    rw [hwidget, Option.all_some, decide_eq_true_iff] at hpin
    obtain ⟨hkind, hseveral, hentry⟩ := hpin
    rw [Widget.Feeds, hkind] at hfeeds
    simp only [if_pos hseveral, hselect, hentry, Option.some.injEq] at hfeeds
    -- no widget has the node that is selected
    have hmissing : rangesCodec.widget 48 = none := by
      decide +kernel
    subst hfeeds
    cases hupstream with
    | dac hwidget => rw [hmissing] at hwidget; cases hwidget
    | step hwidget => rw [hmissing] at hwidget; cases hwidget

end SaeOS.Hda
