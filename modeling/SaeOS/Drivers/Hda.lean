import Mathlib.Data.List.Dedup
import SaeOS.Lib.BreadthFirst

/-!
# HD Audio codecs

`kernel/src/drivers/hda/codec.rs`: choosing the outputs of a codec and a path to a DAC for each, and the verbs
that power the paths on and route them.
-/

namespace SaeOS.Hda

/-! ## Verbs -/

/-- A 12-bit verb with an 8-bit payload. -/
def verb12 (verb : UInt16) (payload : UInt8) : UInt32 :=
  verb.toUInt32 <<< 8 ||| payload.toUInt32

/-- A 4-bit verb with a 16-bit payload. -/
def verb4 (verb : UInt8) (payload : UInt16) : UInt32 :=
  verb.toUInt32 <<< 16 ||| payload.toUInt32

def setConnectionSelect : UInt16 := 0x701
def setPowerState : UInt16 := 0x705
def setPinControl : UInt16 := 0x707
def setEapd : UInt16 := 0x70c
def setAmpGainMute : UInt8 := 0x3

def capsInAmp : UInt32 := (1 : UInt32) <<< 1
def capsOutAmp : UInt32 := (1 : UInt32) <<< 2
def capsDigital : UInt32 := (1 : UInt32) <<< 9
def capsPower : UInt32 := (1 : UInt32) <<< 10

def pinHeadphoneDrive : UInt32 := (1 : UInt32) <<< 3
def pinOutput : UInt32 := (1 : UInt32) <<< 4
def pinHdmi : UInt32 := (1 : UInt32) <<< 6
def pinEapd : UInt32 := (1 : UInt32) <<< 16
def pinDisplayPort : UInt32 := (1 : UInt32) <<< 24

def pinControlOut : UInt8 := 0x40
def pinControlHeadphone : UInt8 := 0x80
def eapdEnable : UInt8 := 0x02
def pcm16Bit : UInt32 := (1 : UInt32) <<< 17

/-- Rates by their bit in the PCM parameter. -/
def rates : List UInt32 :=
  [8000, 11025, 16000, 22050, 32000, 44100, 48000, 88200, 96000, 176400, 192000, 384000]

/-! ## Codecs -/

abbrev Node := UInt8

inductive WidgetType where
  | output
  | input
  | mixer
  | selector
  | pin
  | other (type : UInt8)
deriving DecidableEq

/-- What a pin's default configuration says it drives. -/
inductive PinDevice where
  | lineOut
  | speaker
  | headphone
deriving DecidableEq

structure Widget where
  node : Node
  kind : WidgetType
  caps : UInt32
  pinCaps : UInt32
  pinDefault : UInt32
  ampIn : UInt32
  ampOut : UInt32
  pcm : UInt32
  /-- The widgets that feed this one, in connection-index order. -/
  connections : List Node
deriving DecidableEq

namespace Widget

def digital (w : Widget) : Bool :=
  w.caps &&& capsDigital ≠ 0

/-- The analog output this pin drives, if it is one to use. -/
def outputDevice (w : Widget) : Option PinDevice :=
  if w.kind ≠ .pin ∨ w.pinCaps &&& pinOutput = 0 ∨ w.pinCaps &&& (pinHdmi ||| pinDisplayPort) ≠ 0 ∨
      w.digital ∨ w.pinDefault >>> 30 = 1 then none
  else
    match (w.pinDefault >>> 20 &&& 0xf).toNat with
    | 0 => some .lineOut
    | 1 => some .speaker
    | 2 => some .headphone
    | _ => none

end Widget

/-- The widgets have consecutive node numbers. -/
structure Codec where
  address : UInt8
  vendor : UInt32
  functionGroup : Node
  widgets : List Widget
  nodup : (widgets.map Widget.node).Nodup

def Codec.widget (codec : Codec) (node : Node) : Option Widget :=
  codec.widgets.find? (·.node = node)

inductive CodecError where
  /-- Nothing analog to play on. -/
  | noOutputs
  /-- The DACs share no 16-bit rate. -/
  | noFormat
deriving DecidableEq

/-- One output: the pin, then each widget towards its DAC, which is the last node. -/
structure OutputPath where
  device : PinDevice
  nodes : List Node
deriving DecidableEq

/-- None only where there are no nodes. -/
def OutputPath.pin (output : OutputPath) : Option Node :=
  output.nodes.head?

def OutputPath.dac (output : OutputPath) : Option Node :=
  output.nodes.getLast?

structure OutputPlan where
  address : UInt8
  vendor : UInt32
  functionGroup : Node
  outputs : List OutputPath
  /-- Each DAC once. -/
  dacs : List Node
  /-- Rates every DAC plays with 16-bit samples, ascending. -/
  rates : List UInt32
deriving DecidableEq

/-! ## Paths -/

instance fintype_byte : Fintype UInt8 :=
  Fintype.ofEquiv (Fin UInt8.size) ⟨UInt8.ofFin, UInt8.toFin, fun _ => rfl, fun _ => rfl⟩

/-- The connections of a node, if it is a widget of the codec. -/
def Codec.connections (codec : Codec) (node : Node) : List Node :=
  match codec.widget node with
  | none => []
  | some widget => widget.connections

/-- What the search for DACs does at a node: a path ends at an analog DAC, and goes on through mixers and
selectors. -/
def Codec.role (codec : Codec) (source : Node) : BreadthFirst.Role :=
  match codec.widget source with
  | none => .dead
  | some next =>
    match next.kind with
    | .output => if next.digital then .dead else .goal
    | .mixer | .selector => .inner
    | _ => .dead

/-- Shortest paths from a pin back to every analog DAC it can reach. -/
def pathsToDacs (codec : Codec) (pin : Node) : List (List Node) :=
  BreadthFirst.paths codec.connections codec.role pin

/-! ## The plan -/

/-- The order the firmware groups pins in: association, then sequence, then the node. -/
def Widget.before (a b : Widget) : Bool :=
  let keyA := a.pinDefault &&& 0xff
  let keyB := b.pinDefault &&& 0xff
  keyA < keyB ∨ keyA = keyB ∧ a.node ≤ b.node

/-- The pins to use. -/
def Codec.pins (codec : Codec) : List (Widget × PinDevice) :=
  (codec.widgets.filterMap fun widget => widget.outputDevice.map fun device => (widget, device)).mergeSort
    fun a b => a.1.before b.1

/-- Whether an output has the DAC of a path. -/
def taken (outputs : List OutputPath) (path : List Node) : Bool :=
  outputs.any fun output => output.dac = path.getLast?

/-- One round of the loop over the pins. -/
def addOutput (codec : Codec) (outputs : List OutputPath) (pin : Widget × PinDevice) : List OutputPath :=
  let paths := pathsToDacs codec pin.1.node
  match (paths.find? fun path => !taken outputs path).or paths.head? with
  | none => outputs
  | some nodes => outputs ++ [⟨pin.2, nodes⟩]

def Codec.outputs (codec : Codec) : List OutputPath :=
  codec.pins.foldl (addOutput codec) []

/-- Base rate 48 or 44.1 kHz, multiplier, divisor, 16-bit samples, and channels less one. -/
def streamFormat (rate : UInt32) (channels : UInt8) : Option UInt16 := do
  let (base44k, multiply, divide) ← (match rate.toNat with
    | 8000 => some (0, 1, 6)
    | 11025 => some (1, 1, 4)
    | 16000 => some (0, 1, 3)
    | 22050 => some (1, 1, 2)
    | 32000 => some (0, 2, 3)
    | 44100 => some (1, 1, 1)
    | 48000 => some (0, 1, 1)
    | 88200 => some (1, 2, 1)
    | 96000 => some (0, 2, 1)
    | 176400 => some (1, 4, 1)
    | 192000 => some (0, 4, 1)
    | _ => none : Option (UInt16 × UInt16 × UInt16))
  if 1 ≤ channels ∧ channels ≤ 16 then
    some (base44k <<< 14 ||| (multiply - 1) <<< 11 ||| (divide - 1) <<< 8 ||| (1 : UInt16) <<< 4 |||
      (channels - 1).toUInt16)
  else none

/-- Choose outputs and the DAC behind each. -/
def planOutputs (codec : Codec) : Except CodecError OutputPlan :=
  let outputs := codec.outputs
  if outputs = [] then .error .noOutputs
  else
    let dacs := ((outputs.filterMap OutputPath.dac).mergeSort (· ≤ ·)).dedup
    let common := dacs.foldl (fun rates dac => ((codec.widget dac).elim 0 Widget.pcm) &&& rates) 0xffffffff
    if common &&& pcm16Bit = 0 then .error .noFormat
    else
      let supported := (rates.zipIdx.filter fun entry => common &&& (1 : UInt32) <<< entry.2.toUInt32 ≠ 0).map Prod.fst
      let supported := supported.filter fun rate => (streamFormat rate 2).isSome
      if supported = [] then .error .noFormat
      else .ok ⟨codec.address, codec.vendor, codec.functionGroup, outputs, dacs, supported⟩

/-! ## The verbs of a plan -/

/-- `SET_AMP_GAIN_MUTE` payload: output or input amp, both channels. -/
def amp (output : Bool) (index gain : UInt8) (mute : Bool) : UInt32 :=
  let direction : UInt16 := if output then (1 : UInt16) <<< 15 else (1 : UInt16) <<< 14
  let muted : UInt16 := if mute then 1 else 0
  verb4 setAmpGainMute
    (direction ||| (0b11 : UInt16) <<< 12 ||| (index &&& 0xf).toUInt16 <<< 8 ||| muted <<< 7 |||
      (gain &&& 0x7f).toUInt16)

/-- A verb and the node it is sent to. -/
abbrev Send := Node × UInt32

/-- What makes a widget take the connection with the given index. -/
def selectSends (widget : Widget) (node : Node) (index : ℕ) : List Send :=
  match widget.kind with
  | .mixer =>
    if widget.caps &&& capsInAmp ≠ 0 then
      [(node, amp false (UInt8.ofNat index) (widget.ampIn &&& 0x7f).toUInt8 false)]
    else []
  | _ =>
    if 1 < widget.connections.length then [(node, verb12 setConnectionSelect (UInt8.ofNat index))] else []

/-- The verbs for a node of a path, with the widget feeding it along the path. -/
def nodeSends (codec : Codec) (node : Node) (upstream : Option Node) : List Send :=
  match codec.widget node with
  | none => []
  | some widget =>
    (if widget.caps &&& capsPower ≠ 0 then [(node, verb12 setPowerState 0)] else []) ++
    (match upstream.bind fun upstream => widget.connections.findIdx? (· = upstream) with
      | none => []
      | some index => selectSends widget node index) ++
    (if widget.caps &&& capsOutAmp ≠ 0 then [(node, amp true 0 (widget.ampOut &&& 0x7f).toUInt8 false)] else [])

def pathSends (codec : Codec) : List Node → List Send
  | [] => []
  | node :: nodes => nodeSends codec node nodes.head? ++ pathSends codec nodes

/-- The verbs for the pin of an output behind those of its path. -/
def pinSends (codec : Codec) (output : OutputPath) : List Send :=
  match output.pin with
  | none => []
  | some pin =>
    match codec.widget pin with
    | none => []
    | some widget =>
      let headphone := output.device = .headphone ∧ widget.pinCaps &&& pinHeadphoneDrive ≠ 0
      let control := if headphone then pinControlOut ||| pinControlHeadphone else pinControlOut
      (pin, verb12 setPinControl control) ::
        (if widget.pinCaps &&& pinEapd ≠ 0 then [(pin, verb12 setEapd eapdEnable)] else [])

/-- Power the outputs' paths on and route them. -/
def configure (codec : Codec) (plan : OutputPlan) : List Send :=
  (codec.functionGroup, verb12 setPowerState 0) ::
    plan.outputs.flatMap fun output => pathSends codec output.nodes ++ pinSends codec output

end SaeOS.Hda
