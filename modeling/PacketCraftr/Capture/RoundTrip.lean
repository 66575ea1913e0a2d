import Mathlib.Algebra.Order.BigOperators.Group.List
import Mathlib.Data.List.DropRight
import PacketCraftr.Capture.Encoding

/-!
# A capture that was written is read back

The proof is a simulation. `Capture.Extends` says that what a writer has added to its output takes a
reader that matches the writer before to one that matches the writer after; it holds of each block,
and it composes. What the reader finds is stated by the operations alone (`Capture.requested`).
-/

open List Except

namespace PacketCraftr.Capture

open Writer Reader TimestampPrecision PcapNgState

/-! ### Sizes -/

/-- A block that was written, by its length and the number of its options. The block of a frame of a
classic file is as long as its bytes. -/
inductive Written
  | interface (length options : ℕ)
  | packet (length options : ℕ)
  deriving DecidableEq

namespace Written

def length : Written → ℕ
  | interface length _ => length
  | packet length _ => length

def options : Written → ℕ
  | interface _ options => options
  | packet _ options => options

def isInterface : Written → Bool
  | interface .. => true
  | packet .. => false

def ofInterface (description : Interface) (options : List PcapNgOption) : Written :=
  interface (interfaceDescriptionLength description.timestampOffset options)
    ((if description.timestampOffset = 0 then 1 else 2) + options.length)

end Written

namespace WriterState

def isPcapNg : WriterState → Bool
  | pcap .. => false
  | pcapNg .. => true

/-- The interfaces of a file. A classic file has the one of its header. -/
def interfaces : WriterState → List Interface
  | pcap e precision snapLen linkType => [PcapState.interface ⟨e, precision, snapLen, linkType⟩]
  | pcapNg _ interfaces => interfaces

end WriterState

/-- The limits of a reader are not below the sizes that a writer has written: those of each block,
those of the descriptions between two packets, and the number of interfaces. -/
structure ReaderLimits.Admits (limits : ReaderLimits) (state : WriterState)
    (written : List Written) : Prop where
  size : ∀ b ∈ written, b.length ≤ limits.maxSize
  options : ∀ b ∈ written, b.options ≤ limits.maxOptionsPerBlock
  metadata : ∀ between, between <:+: written → (∀ b ∈ between, b.isInterface) →
    between.length ≤ limits.maxMetadataBlocksPerFrame ∧
      (between.map Written.length).sum ≤ limits.maxMetadataBytesPerFrame
  interfaces : state.interfaces.length ≤ limits.maxTotalInterfaces
  section_le : state.isPcapNg →
    state.interfaces.length ≤ limits.maxInterfacesPerSection ∧ 28 ≤ limits.maxSize
  words : limits.maxMetadataBlocksPerFrame < wordLimit ∧ limits.maxMetadataBytesPerFrame < wordLimit

/-! ### Operations -/

inductive Op
  | addInterface (linkType : UInt32)
  | addInterfaceDescription (description : Interface) (options : List PcapNgOption)
  | writeFrame (frame : Frame)

/-- The interface that an operation asks for. A frame that names none asks for one when there is none
of its link type. -/
def Op.describes (maxSize : ℕ) (interfaces : List Interface) : Op → Option Interface
  | addInterface linkType => some ⟨linkType, UInt32.ofNat maxSize, .decimal 9, 0⟩
  | addInterfaceDescription description _ => some description
  | writeFrame frame =>
    if frame.interface = none ∧ ∀ interface ∈ interfaces, interface.linkType ≠ frame.linkType then
      some ⟨frame.linkType, UInt32.ofNat maxSize, .decimal 9, 0⟩
    else none

/-- The position that an operation returns for the interface it adds. -/
def Op.position (interfaces : List Interface) : Op → List ℕ
  | addInterface _ | addInterfaceDescription .. => [interfaces.length]
  | writeFrame _ => []

/-- The positions that operations return, and the interfaces of the file after them. -/
def requested (maxSize : ℕ) (interfaces : List Interface) : List Op → List ℕ × List Interface
  | [] => ([], interfaces)
  | op :: ops =>
    let (positions, interfaces') :=
      requested maxSize (interfaces ++ (op.describes maxSize interfaces).toList) ops
    (op.position interfaces ++ positions, interfaces')

namespace FrameEncoding

/-- The blocks that a frame is written as. -/
def written (frame : Frame) : FrameEncoding → List Written
  | pcap .. => [.packet frame.capturedLength 0]
  | pcapNg _ _ blockLength newInterface =>
    (newInterface.toList.map (Written.ofInterface · [])) ++
      [.packet blockLength (if frame.direction.isSome then 1 else 0)]

/-- A frame with the interface that was chosen for it. -/
def stored (frame : Frame) : FrameEncoding → Frame
  | pcap .. => frame
  | pcapNg interfaceId .. => { frame with interface := some (UInt32.ofNat interfaceId) }

end FrameEncoding

namespace Writer

/-- One operation: the position that it returns, the blocks that it writes, the frames among them, and
the writer after it. -/
def apply (w : Writer) : Op → Except Error (List ℕ × List Written × List Frame × Writer)
  | .addInterface linkType => do
    let snapLen ← usizeToU32Limit w.maxSize
    let (id, w') ← w.addInterface linkType
    pure ([id], [.ofInterface ⟨linkType, snapLen, writerTimestampResolution, 0⟩ []], [], w')
  | .addInterfaceDescription description options => do
    let (id, w') ← w.addInterfaceDescriptionWithOptions description options
    pure ([id], [.ofInterface description options], [], w')
  | .writeFrame frame => do
    let plan ← w.prepareFrame frame
    let w' ← w.writeFrame frame
    pure ([], plan.encoding.written frame, [plan.encoding.stored frame], w')

def run (w : Writer) : List Op → Except Error (List ℕ × List Written × List Frame × Writer)
  | [] => .ok ([], [], [], w)
  | op :: ops => do
    let (ids, written, frames, w) ← w.apply op
    let (ids', written', frames', w) ← w.run ops
    pure (ids ++ ids', written ++ written', frames ++ frames', w)

end Writer

/-! ### The simulation -/

/-- The state of a reader that has read the blocks that a writer has written. -/
def WriterState.reader (written : List Written) : WriterState → ReaderState
  | pcap e precision snapLen linkType => .pcap ⟨e, precision, snapLen, linkType⟩
  | pcapNg e _ =>
    let pending := written.rtakeWhile Written.isInterface
    .pcapNg ⟨e, 0, 0, none, pending.length, (pending.map Written.length).sum⟩

/-- A reader has read what a writer has written. -/
structure Matches (limits : ReaderLimits) (state : WriterState) (written : List Written)
    (r : Reader) : Prop where
  limits : r.limits = limits
  reading : r.finished = false
  interfaces : r.interfaces = state.interfaces
  state : r.state = state.reader written

/-- The calls of a reader return records. -/
def Reader.Returns (r : Reader) (records : List CaptureRecord) (r' : Reader) : Prop :=
  r.calls records.length = (records.map fun record => .ok (some record), r')

theorem Reader.calls_add (n m : ℕ) (r : Reader) :
    r.calls (n + m) = ((r.calls n).1 ++ ((r.calls n).2.calls m).1, ((r.calls n).2.calls m).2) := by
  induction n generalizing r with
  | zero => rw [Nat.zero_add]; rfl
  | succ n ih =>
    have hc (k : ℕ) : r.calls (k + 1) =
        (r.nextRecord.1 :: (r.nextRecord.2.calls k).1, (r.nextRecord.2.calls k).2) := rfl
    rw [Nat.succ_add, hc, hc, ih]
    rfl

theorem Reader.Returns.append {r r' r'' : Reader} {rc rc' : List CaptureRecord}
    (h : r.Returns rc r') (h' : r'.Returns rc' r'') :
    r.Returns (rc ++ rc') r'' := by
  unfold Returns at h h' ⊢
  rw [length_append, calls_add, h, h', map_append]

/-- What a writer adds to its output takes the readers that match it before to those that match it
after. -/
def Extends (limits : ReaderLimits) (w : Writer) (before written : List Written)
    (frames : List Frame) (w' : Writer) : Prop :=
  ∃ chunk, w'.output = w.output ++ chunk ∧ ∀ r rest, Matches limits w.state before r →
    r.rest = chunk ++ rest → ∃ records r', r.Returns records r' ∧ r'.rest = rest ∧
      Matches limits w'.state (before ++ written) r' ∧
      records.filterMap CaptureRecord.frame = frames

namespace Extends

variable {limits : ReaderLimits} {w w' w'' : Writer} {before written written' : List Written}
  {frames frames' : List Frame}

theorem refl (limits : ReaderLimits) (w : Writer) (before : List Written) :
    Extends limits w before [] [] w := by
  refine ⟨[], (append_nil _).symm, fun r rest hr hrs => ⟨[], r, rfl, hrs, ?_, rfl⟩⟩
  rwa [append_nil]

theorem trans (h : Extends limits w before written frames w')
    (h' : Extends limits w' (before ++ written) written' frames' w'') :
    Extends limits w before (written ++ written') (frames ++ frames') w'' := by
  obtain ⟨c, ho, hrd⟩ := h
  obtain ⟨c', ho', hrd'⟩ := h'
  refine ⟨c ++ c', by rw [ho', ho, append_assoc], ?_⟩
  intro r rest hr hrs
  obtain ⟨rc, r', hrt, hrs', hr', rfl⟩ := hrd r (c' ++ rest) hr (by rw [hrs, append_assoc])
  obtain ⟨rc', r'', hrt', hrs'', hr'', rfl⟩ := hrd' r' rest hr' hrs'
  refine ⟨rc ++ rc', r'', hrt.append hrt', hrs'', ?_, filterMap_append⟩
  rwa [← append_assoc]

theorem of_record {c : Bytes} (ho : w'.output = w.output ++ c)
    (hrd : ∀ r rest, Matches limits w.state before r → r.rest = c ++ rest →
      ∃ record r', r.readRecord = .ok (some (record, r')) ∧ r'.rest = rest ∧
        Matches limits w'.state (before ++ written) r' ∧ record.frame.toList = frames) :
    Extends limits w before written frames w' := by
  refine ⟨c, ho, fun r rest hr hrs => ?_⟩
  obtain ⟨record, r', hrc, hrs', hr', rfl⟩ := hrd r rest hr hrs
  refine ⟨[record], r', ?_, hrs', hr', ?_⟩
  · simp only [Reader.Returns, length_singleton, calls, Reader.nextRecord, hr.reading,
      Bool.false_eq_true, if_false, hrc]
    rfl
  · cases h : record.frame <;> simp [h]

theorem of_block {c : Bytes} {e : Endianness} {interfaces interfaces' : List Interface}
    {s : PcapNgState} (hs : w.state = .pcapNg e interfaces)
    (ho : w'.output = w.output ++ c) (hi : w'.state.interfaces = interfaces')
    (hn : w'.state.reader (before ++ written) = .pcapNg s)
    (hre : ∀ rest, ∃ record, readNextPcapngRecord (c ++ rest) ⟨e, 0, 0, none,
        (before.rtakeWhile Written.isInterface).length,
        ((before.rtakeWhile Written.isInterface).map Written.length).sum⟩ interfaces limits =
      .ok (some (record, s, interfaces', rest)) ∧ record.frame.toList = frames) :
    Extends limits w before written frames w' := by
  refine .of_record ho fun r rest hr hrs => ?_
  obtain ⟨record, hre, hf⟩ := hre rest
  have hrd := hr.state
  rw [hs, WriterState.reader] at hrd
  have hk : r.interfaces = interfaces := by
    rw [hr.interfaces, hs]
    rfl
  rw [← hk, ← hrs, ← hr.limits] at hre
  refine ⟨record, _, by rw [readRecord, hrd]; simp only [hre]; rfl, rfl, ?_, hf⟩
  exact ⟨hr.limits, hr.reading, hi.symm, hn.symm⟩

end Extends

/-! ### Interface descriptions -/

section Blocks

variable {limits : ReaderLimits} {w w' : Writer} {before : List Written} {e : Endianness}
  {interfaces : List Interface}

variable {d : Interface} {options : List PcapNgOption} {precision : TimestampPrecision}

theorem readNextPcapngRecord_interface {bytes : Bytes} (rest : Bytes) {blocks m : ℕ}
    (hbs : writeInterfaceDescription e d options = .ok bytes)
    (hc : ∀ o ∈ options, ¬ optionRefused o)
    (hln : d.linkType.toNat ≤ 0xffff) (hrm : interfaces.length < 2 ^ 32)
    (hs : (Written.ofInterface d options).length ≤ limits.maxSize)
    (ho : (Written.ofInterface d options).options ≤ limits.maxOptionsPerBlock)
    (hbl : blocks + 1 ≤ limits.maxMetadataBlocksPerFrame)
    (hm : m + (Written.ofInterface d options).length ≤ limits.maxMetadataBytesPerFrame)
    (hw : limits.maxMetadataBlocksPerFrame < wordLimit ∧ limits.maxMetadataBytesPerFrame <
      wordLimit) (hsc : interfaces.length < limits.maxInterfacesPerSection)
    (htt : interfaces.length < limits.maxTotalInterfaces) :
    ∃ record, readNextPcapngRecord (bytes ++ rest) ⟨e, 0, 0, none, blocks, m⟩ interfaces limits =
      .ok (some (record, ⟨e, 0, 0, none, blocks + 1, m + (Written.ofInterface d options).length⟩,
        interfaces ++ [d], rest)) ∧ record.frame.toList = [] := by
  obtain ⟨hlen, tsresol, ht, rfl⟩ := writeInterfaceDescription_ok hbs
  set all := timestampOptions e tsresol d.timestampOffset ++ options with ha
  have hb : (interfaceBody e d all).length + 12 =
      (Written.ofInterface d options).length := length_interfaceBody _ _
  have hwh := interfaceDescriptionLength_mod d.timestampOffset options
  have hcn : all.length ≤ limits.maxOptionsPerBlock := by
    refine le_trans (le_of_eq ?_) ho
    rw [ha, length_append]
    simp only [Written.ofInterface, Written.options, timestampOptions]
    split_ifs <;> simp_all
  have hac : (mk e 0 0 none blocks m).accountBlock blockTypeInterface
      ((interfaceBody e d all).length + 12) limits = .ok ⟨e, 0, 0, none, blocks + 1,
        m + (Written.ofInterface d options).length⟩ := by
    have hsum := checkedAdd_eq_some.mpr ⟨lt_of_le_of_lt hm hw.2, rfl⟩
    rw [hb]
    change accountMetadata _ _ _ = _
    rw [accountMetadata]
    simp only [saturatingAdd_eq (lt_of_le_of_lt hbl hw.1), hsum]
    rw [rejectIf_neg (by omega), ok_bind, Option.filter_some, if_pos (by simpa)]
    rfl
  have hp := parseInterfaceDescription_write ht (by omega) hc hcn
  have hmg : u32 e blockTypeInterface ≠ sectionHeaderMagic := by cases e <;> decide
  have hr := readNextPcapngRecord_framed (s := ⟨e, 0, 0, none, blocks, m⟩) rfl
    (by decide) (hb ▸ hlen)
    (by change _ + 12 = interfaceDescriptionLength _ _ at hb; omega) (hb ▸ hs) rfl
    hac rfl rfl rest interfaces hmg
  rw [hr, decodeBlock, if_pos rfl, decodeInterface, hp]
  simp only [ok_bind, sectionInterfaces, PcapNgState.addInterface, drop_zero]
  rw [rejectIf_neg (by omega), ok_bind, rejectIf_neg (by omega),
    ok_bind, rejectIf_neg (by omega), ok_bind, rejectIf_neg (by omega)]
  exact ⟨_, rfl, rfl⟩

theorem extends_writeInterface (hst : w.state = .pcapNg e interfaces)
    (hc : ∀ o ∈ options, ¬ optionRefused o)
    (hln : d.linkType.toNat ≤ 0xffff) (hrm : interfaces.length < 2 ^ 32)
    (hw : w.writeInterface e interfaces d options = .ok w')
    (ha : limits.Admits w'.state (before ++ [.ofInterface d options])) :
    Extends limits w before [.ofInterface d options] [] w' := by
  obtain ⟨bytes, hbs, h⟩ := bind_eq_ok.mp hw
  obtain rfl := ok.inj h
  have hl : Written.ofInterface d options ∈ before ++ [Written.ofInterface d options] := by simp
  have hp : (before ++ [Written.ofInterface d options]).rtakeWhile
      Written.isInterface = before.rtakeWhile Written.isInterface ++
        [Written.ofInterface d options] :=
    rtakeWhile_concat_pos _ _ _ rfl
  obtain ⟨hbl, hm⟩ := ha.metadata _ (rtakeWhile_suffix _ _).isInfix
    fun b hb => mem_rtakeWhile_imp hb
  rw [hp, length_append, length_singleton] at hbl
  rw [hp, map_append, sum_append, map_singleton, sum_singleton] at hm
  obtain ⟨hs, -⟩ := ha.section_le rfl
  have ht := ha.interfaces
  rw [show (WriterState.pcapNg e (interfaces ++ [d])).interfaces =
    interfaces ++ [d] from rfl, length_append, length_singleton]
    at hs ht
  refine .of_block hst rfl rfl ?_ fun rest => readNextPcapngRecord_interface rest hbs hc
    hln hrm (ha.size _ hl) (ha.options _ hl) hbl hm ha.words
    hs ht
  simp only [WriterState.reader, hp, length_append, length_singleton,
    map_append, map_singleton, sum_append, sum_singleton]

/-! ### Packets -/

theorem length_packetOptions (direction : Option Direction) :
    (packetOptions e direction).length = if direction.isSome then 1 else 0 := by
  cases direction <;> rfl

section Packet

variable {i tc b : ℕ} {interface : Interface} {frame : Frame}
  {t : SystemTime} (hin : interfaces[i]? = some interface)
  (hln : interface.linkType = frame.linkType)
  (hsp : ¬ (interface.snapLen ≠ 0 ∧ frame.capturedLength > interface.snapLen.toNat))
  (htm : frame.timestamp = some t)
  (htc : timestampToTicks t interface.timestampResolution interface.timestampOffset = .ok tc)
  (hid : i < 2 ^ 32)
  (hlen : b = 32 + align4 frame.capturedLength +
    if frame.direction.isSome then 12 else 0)
  (hwr : b < 2 ^ 32)

include hin hln hsp htm htc hid hlen hwr

theorem readNextPcapngRecord_packet (rest : Bytes) (blocks m : ℕ) (hs : b ≤ limits.maxSize)
    (ho : (if frame.direction.isSome then 1 else 0) ≤ limits.maxOptionsPerBlock) :
    readNextPcapngRecord (writeEnhancedPacket e i tc b frame ++ rest)
        ⟨e, 0, 0, none, blocks, m⟩ interfaces limits =
      .ok (some (⟨.packet .enhanced (some 0) (some i) (packetOptions e frame.direction),
        some { frame with interface := some (UInt32.ofNat i) }, .pcapNg,
        writeEnhancedPacket e i tc b frame⟩, ⟨e, 0, 0, none, 0, 0⟩,
        interfaces, rest)) := by
  have hb : (packetBody e i tc frame).length + 12 = b := by
    rw [length_packetBody]
    omega
  have hw : (packetBody e i tc frame).length % 4 = 0 := by
    rw [length_packetBody]
    unfold align4
    split_ifs <;> omega
  have hc : frame.capturedLength ≤ limits.maxSize := by
    have := le_align4 frame.capturedLength
    omega
  have hm : u32 e blockTypeEnhancedPacket ≠ sectionHeaderMagic := by cases e <;> decide
  have hp := parsePacket_write (e := e) hin hln hsp htm htc (show 0 + i < 2 ^ 32 by omega) hc
    (length_packetOptions frame.direction ▸ ho)
  have ha : (mk e 0 0 none blocks m).accountBlock
      blockTypeEnhancedPacket ((packetBody e i tc frame).length + 12) limits =
        .ok ⟨e, 0, 0, none, blocks, m⟩ := rfl
  have hr := readNextPcapngRecord_framed (s := ⟨e, 0, 0, none, blocks, m⟩) rfl
    (by decide) (hb ▸ hwr) hw (hb ▸ hs) rfl ha rfl rfl rest interfaces hm
  rw [← hb, writeEnhancedPacket_eq, hr, decodeBlock,
    if_neg (show blockTypeEnhancedPacket ≠ blockTypeInterface by decide),
    show packetBlockKind blockTypeEnhancedPacket = some .enhanced from rfl]
  simp only [decodePacket, parseKind, sectionInterfaces, drop_zero]
  rw [hp, Nat.zero_add]
  rfl

theorem extends_packet (hs : w.state = .pcapNg e interfaces)
    (ho : w'.output = w.output ++ writeEnhancedPacket e i tc b frame)
    (hsm : w'.state = w.state)
    (ha : limits.Admits w'.state
      (before ++ [.packet b (if frame.direction.isSome then 1 else 0)])) :
    Extends limits w before [.packet b (if frame.direction.isSome then 1 else 0)]
      [{ frame with interface := some (UInt32.ofNat i) }] w' := by
  have hl : Written.packet b (if frame.direction.isSome then 1 else 0) ∈
      before ++ [.packet b (if frame.direction.isSome then 1 else 0)] := by simp
  refine .of_block hs ho (by rw [hsm, hs]; rfl) ?_ fun rest =>
    ⟨_, readNextPcapngRecord_packet hin hln hsp htm htc hid hlen hwr rest _ _
      (ha.size _ hl) (ha.options _ hl), rfl⟩
  have hp : (before ++ [Written.packet b
      (if frame.direction.isSome then 1 else 0)]).rtakeWhile Written.isInterface = [] :=
    rtakeWhile_concat_neg _ _ _ nofun
  rw [hsm, hs, WriterState.reader, hp]
  rfl

end Packet

/-! ### Frames of classic files -/

/-- The seconds and the fraction that a classic file stores determine the time of a frame. -/
theorem validatePcapFrame_ok {frame : Frame} {snapLen lt : UInt32} {s f : ℕ}
    (h : validatePcapFrame frame precision snapLen lt = .ok (s, f)) :
    frame.interface = none ∧ frame.direction = none ∧ frame.linkType = lt ∧
      frame.capturedLength ≤ snapLen.toNat ∧ s < 2 ^ 32 ∧ f < precision.denominator ∧
      ∃ t, frame.timestamp = some t ∧ (s * 1000000000 + f * precision.scale : ℤ) = t.nanos := by
  obtain ⟨hin, h⟩ := rejectIf_bind_eq_ok.mp h
  obtain ⟨hd, h⟩ := rejectIf_bind_eq_ok.mp h
  obtain ⟨hln, h⟩ := rejectIf_bind_eq_ok.mp h
  obtain ⟨hsp, h⟩ := rejectIf_bind_eq_ok.mp h
  obtain ⟨t, htm, h⟩ := bind_eq_ok.mp h
  obtain ⟨hp, h⟩ := rejectIf_bind_eq_ok.mp h
  obtain ⟨hsn, h⟩ := rejectIf_bind_eq_ok.mp h
  obtain ⟨hw, h⟩ := rejectIf_bind_eq_ok.mp h
  cases h
  set nanoseconds := (t.nanos % 1000000000).toNat with hn
  have hf : nanoseconds / precision.scale < precision.denominator ∧
      nanoseconds / precision.scale * precision.scale = nanoseconds := by
    cases precision with
    | microseconds =>
      simp only [scale, denominator] at hw ⊢
      omega
    | nanoseconds =>
      simp only [scale, denominator]
      omega
  have hs : ((nanoseconds / precision.scale : ℕ) : ℤ) * precision.scale = nanoseconds := by
    exact_mod_cast hf.2
  refine ⟨by simpa using hin, by simpa using hd, by simpa using hln, by omega,
    by omega, hf.1, t, okOr_eq_ok.mp htm, ?_⟩
  rw [hs]
  omega

theorem extends_pcapFrame {frame : Frame} {snapLen lt : UInt32} {s f : ℕ}
    (hs : w.state = .pcap e precision snapLen lt)
    (hf : validatePcapFrame frame precision snapLen lt = .ok (s, f))
    (ho : w'.output = w.output ++ writePcapFrame e s f frame)
    (hsm : w'.state = w.state)
    (ha : limits.Admits w'.state (before ++ [.packet frame.capturedLength 0])) :
    Extends limits w before [.packet frame.capturedLength 0] [frame] w' := by
  obtain ⟨hin, hd, hln, hsp, hsc, hfc, t, htm, hn⟩ := validatePcapFrame_ok hf
  have hsz : frame.capturedLength ≤ limits.maxSize :=
    ha.size (.packet frame.capturedLength 0) (by simp)
  refine .of_record ho fun r rest hr hrs => ?_
  have hre := readNextPcapRecord_write ⟨e, precision, snapLen, lt⟩ rest htm
    hsc hfc hn hln.symm hsp hsz
  have hrd : r.state = .pcap ⟨e, precision, snapLen, lt⟩ := by
    rw [hr.state, hs]
    rfl
  rw [← hrs, ← hr.limits] at hre
  refine ⟨_, _, by rw [readRecord, hrd]; simp only [hre]; rfl, rfl, ?_, ?_⟩
  · exact
      { limits := hr.limits
        reading := hr.reading
        interfaces := by rw [hsm, ← hr.interfaces]
        state := by rw [hsm, hs]; rfl }
  · rw [← hin, ← hd]
    rfl

end Blocks

/-! ### Writing -/

/-- A writer keeps its format and its interfaces, and adds to them. -/
structure Writer.Grows (w w' : Writer) : Prop where
  isPcapNg : w'.state.isPcapNg = w.state.isPcapNg
  interfaces : w.state.interfaces.length ≤ w'.state.interfaces.length
  room : w.state.interfaces.length ≤ 2 ^ 32 → w'.state.interfaces.length ≤ 2 ^ 32

namespace Writer.Grows

variable {w w' w'' : Writer}

theorem of_state_eq (h : w'.state = w.state) : w.Grows w' :=
  ⟨by rw [h], by rw [h], by rw [h]; exact id⟩

theorem trans (h : w.Grows w') (h' : w'.Grows w'') : w.Grows w'' :=
  ⟨h'.isPcapNg.trans h.isPcapNg, h.interfaces.trans h'.interfaces, h'.room ∘ h.room⟩

end Writer.Grows

theorem ReaderLimits.Admits.of_grows {limits : ReaderLimits} {w w' : Writer}
    {written written' : List Written} (h : limits.Admits w'.state (written ++ written'))
    (hg : w.Grows w') : limits.Admits w.state written where
  size b hb := h.size b (mem_append_left _ hb)
  options b hb := h.options b (mem_append_left _ hb)
  metadata between hbt := h.metadata between (hbt.trans (prefix_append written written').isInfix)
  interfaces := hg.interfaces.trans h.interfaces
  section_le hf :=
    have ha := h.section_le (hg.isPcapNg.trans hf)
    ⟨hg.interfaces.trans ha.1, ha.2⟩
  words := h.words

/-- What an operation adds to a writer: blocks that are read back as frames. -/
structure Writer.Adds (w : Writer) (written : List Written) (frames : List Frame) (w' : Writer) :
    Prop where
  grows : w.Grows w'
  reads : ∀ {limits : ReaderLimits} {before : List Written},
    limits.Admits w'.state (before ++ written) → Extends limits w before written frames w'

theorem Writer.Adds.trans {w w' w'' : Writer} {written written' : List Written}
    {frames frames' : List Frame} (h : w.Adds written frames w')
    (h' : w'.Adds written' frames' w'') : w.Adds (written ++ written') (frames ++ frames') w'' := by
  refine ⟨h.grows.trans h'.grows, fun ha => ?_⟩
  rw [← append_assoc] at ha
  exact (h.reads (ha.of_grows h'.grows)).trans (h'.reads ha)

section Operations

variable {limits : ReaderLimits} {w w' : Writer} {before written : List Written}
  {frames : List Frame} {e : Endianness} {interfaces : List Interface}

variable {ds : Interface} {mi id : ℕ} {ids : List ℕ} {options : List PcapNgOption}
  {fr : Frame} {plan : FramePlan} {p : TimestampPrecision}

theorem validateNewInterface_ok {m : ℕ} (h : validateNewInterface ds interfaces m mi = .ok id) :
    id = interfaces.length ∧ interfaces.length < 2 ^ 32 ∧ ds.linkType.toNat ≤ 0xffff := by
  obtain ⟨_, _, h⟩ := bind_eq_ok.mp h
  obtain ⟨-, h⟩ := rejectIf_bind_eq_ok.mp h
  obtain ⟨-, h⟩ := rejectIf_bind_eq_ok.mp h
  obtain ⟨hrm, h⟩ := rejectIf_bind_eq_ok.mp h
  obtain ⟨hln, h⟩ := rejectIf_bind_eq_ok.mp h
  obtain rfl := ok.inj h
  exact ⟨rfl, by omega, by omega⟩

theorem writeInterface_ok (h : w.writeInterface e interfaces ds options = .ok w') :
    w'.state = .pcapNg e (interfaces ++ [ds]) ∧ w'.maxSize = w.maxSize := by
  obtain ⟨_, _, h⟩ := bind_eq_ok.mp h
  obtain rfl := ok.inj h
  exact ⟨rfl, rfl⟩

theorem grows_writeInterface (hs : w.state = .pcapNg e interfaces)
    (hrm : interfaces.length < 2 ^ 32)
    (h : w.writeInterface e interfaces ds options = .ok w') : w.Grows w' := by
  have hlen : w'.state.interfaces.length = interfaces.length + 1 := by
    rw [(writeInterface_ok h).1]
    exact length_append
  have hb : w.state.interfaces.length = interfaces.length := by
    rw [hs]
    rfl
  refine ⟨?_, by omega, fun _ => by omega⟩
  rw [(writeInterface_ok h).1, hs]
  rfl

theorem addInterfaceDescriptionWithOptions_ok
    (h : w.addInterfaceDescriptionWithOptions ds options = .ok (id, w')) :
    (∀ o ∈ options, ¬ optionRefused o) ∧ ∃ e interfaces,
      w.state = .pcapNg e interfaces ∧ id = interfaces.length ∧ interfaces.length < 2 ^ 32 ∧
      ds.linkType.toNat ≤ 0xffff ∧
      w.writeInterface e interfaces ds options = .ok w' := by
  obtain ⟨hc, h⟩ := rejectIf_bind_eq_ok.mp h
  obtain ⟨-, h⟩ := rejectIf_bind_eq_ok.mp h
  refine ⟨by simpa using hc, ?_⟩
  cases hs : w.state with
  | pcap => rw [hs] at h; cases h
  | pcapNg e interfaces =>
    rw [hs] at h
    obtain ⟨id, hid, h⟩ := bind_eq_ok.mp h
    obtain ⟨w₁, hw₁, h⟩ := bind_eq_ok.mp h
    cases h
    obtain ⟨hlen, hrm, hln⟩ := validateNewInterface_ok hid
    exact ⟨e, interfaces, rfl, hlen, hrm, hln, hw₁⟩

theorem usizeToU32Limit_ok {value : ℕ} {word : UInt32} (h : usizeToU32Limit value = .ok word) :
    word = UInt32.ofNat value := by
  unfold usizeToU32Limit at h
  split_ifs at h
  exact (ok.inj h).symm

/-- The interface that is selected for a frame, among those of the section and the one that it needs
a description of. -/
theorem selectInterface_ok {m : ℕ} {plan : InterfacePlan}
    (h : selectInterface fr interfaces m mi = .ok plan)
    (hrm : interfaces.length ≤ 2 ^ 32) :
    plan.id < 2 ^ 32 ∧ plan.description.linkType = fr.linkType ∧
      (plan.requiresDescriptionBlock = false ∧ interfaces[plan.id]? = some plan.description ∨
        plan.requiresDescriptionBlock = true ∧ plan.id = interfaces.length ∧
          plan.description.linkType.toNat ≤ 0xffff ∧
            (Op.writeFrame fr).describes m interfaces = some plan.description) := by
  unfold selectInterface at h
  cases hin : fr.interface with
  | some id =>
    rw [hin] at h
    obtain ⟨interface, hs, h⟩ := bind_eq_ok.mp h
    obtain ⟨hln, h⟩ := rejectIf_bind_eq_ok.mp h
    cases h
    exact ⟨id.toNat_lt, by simpa using hln, .inl ⟨rfl, okOr_eq_ok.mp hs⟩⟩
  | none =>
    simp only [hin] at h
    split at h
    · rename_i hf
      obtain ⟨snapLen, hsn, h⟩ := bind_eq_ok.mp h
      obtain ⟨id, hid, h⟩ := bind_eq_ok.mp h
      cases h
      obtain ⟨rfl, hl, hln⟩ := validateNewInterface_ok hid
      refine ⟨hl, rfl, .inr ⟨rfl, rfl, hln, ?_⟩⟩
      rw [usizeToU32Limit_ok hsn]
      refine if_pos ⟨hin, fun interface hi => ?_⟩
      obtain ⟨i, hi⟩ := mem_iff_getElem?.mp hi
      simpa using filter_eq_nil_iff.mp hf (interface, i) (mem_zipIdx_iff_getElem?.mpr hi)
    · rename_i ds index hf
      cases h
      have hmem : (ds, index) ∈ interfaces.zipIdx.filter (·.1.linkType = fr.linkType) := by
        rw [hf]
        exact mem_singleton_self _
      obtain ⟨hmem, hln⟩ := mem_filter.mp hmem
      have hs : interfaces[index]? = some ds := by
        simpa using mem_zipIdx_iff_getElem?.mp hmem
      obtain ⟨hi, -⟩ := List.getElem?_eq_some_iff.mp hs
      refine ⟨Nat.mod_lt _ (by decide), by simpa using hln, .inl ⟨rfl, ?_⟩⟩
      rw [Nat.mod_eq_of_lt (by omega)]
      exact hs
    · cases h

theorem adds_addInterfaceDescription
    (h : w.addInterfaceDescriptionWithOptions ds options = .ok (id, w')) :
    w.Adds [.ofInterface ds options] [] w' := by
  obtain ⟨hc, e, interfaces, hs, -, hrm, hln, hw⟩ := addInterfaceDescriptionWithOptions_ok h
  exact ⟨grows_writeInterface hs hrm hw, extends_writeInterface hs hc hln hrm hw⟩

theorem prepareFrame_pcap {snapLen lt : UInt32}
    (hs : w.state = .pcap e p snapLen lt) (h : w.prepareFrame fr = .ok plan) :
    ∃ s fraction, validatePcapFrame fr p snapLen lt = .ok (s, fraction) ∧
      plan.encoding = .pcap s fraction ∧ plan.encodedSize = fr.bytes.length + 16 := by
  obtain ⟨-, h⟩ := rejectIf_bind_eq_ok.mp h
  obtain ⟨b, -, h⟩ := bind_eq_ok.mp h
  rw [hs] at h
  obtain ⟨⟨s, fraction⟩, hf, h⟩ := bind_eq_ok.mp h
  obtain rfl := ok.inj h
  exact ⟨s, fraction, hf, rfl, rfl⟩

theorem prepareFrame_pcapNg (hs : w.state = .pcapNg e interfaces)
    (h : w.prepareFrame fr = .ok plan) :
    ∃ c t ticks blockLength, selectInterface fr interfaces w.maxSize w.maxInterfaces = .ok c ∧
      ¬ (c.description.snapLen ≠ 0 ∧ fr.capturedLength > c.description.snapLen.toNat) ∧
      fr.timestamp = some t ∧
      timestampToTicks t c.description.timestampResolution
        c.description.timestampOffset = .ok ticks ∧
      blockLength = (32 + align4 fr.capturedLength +
        if fr.direction.isSome then 12 else 0) ∧ blockLength < 2 ^ 32 ∧
      plan.encoding = .pcapNg c.id ticks blockLength
        (if c.requiresDescriptionBlock then some c.description else none) ∧
      plan.encodedSize = blockLength + c.descriptionBlockLength := by
  obtain ⟨-, h⟩ := rejectIf_bind_eq_ok.mp h
  obtain ⟨b, -, h⟩ := bind_eq_ok.mp h
  rw [hs] at h
  obtain ⟨c, hc, h⟩ := bind_eq_ok.mp h
  obtain ⟨hsp, h⟩ := rejectIf_bind_eq_ok.mp h
  obtain ⟨t, htm, h⟩ := bind_eq_ok.mp h
  obtain ⟨ticks, htc, h⟩ := bind_eq_ok.mp h
  obtain ⟨-, h⟩ := rejectIf_bind_eq_ok.mp h
  obtain ⟨hwr, h⟩ := rejectIf_bind_eq_ok.mp h
  obtain ⟨-, h⟩ := rejectIf_bind_eq_ok.mp h
  obtain rfl := ok.inj h
  exact ⟨c, t, ticks, _, hc, hsp, okOr_eq_ok.mp htm, htc, rfl, Nat.not_le.mp hwr, rfl, rfl⟩

/-- A frame is written for the interface of its plan, after the description that it needs. -/
theorem writeFrame_pcapNg {interfaceId ticks blockLength : ℕ} {n : Option Interface}
    (hs : w.state = .pcapNg e interfaces) (hp : w.prepareFrame fr = .ok plan)
    (he : plan.encoding = .pcapNg interfaceId ticks blockLength n)
    (h : w.writeFrame fr = .ok w') : ∃ w₁,
      w.writeNewInterface e interfaces n = .ok w₁ ∧ w'.state = w₁.state ∧
      w'.maxSize = w₁.maxSize ∧
      w'.output = w₁.output ++ writeEnhancedPacket e interfaceId ticks blockLength fr := by
  obtain ⟨plan', hp', h⟩ := bind_eq_ok.mp h
  obtain rfl : plan = plan' := ok.inj (hp.symm.trans hp')
  rw [hs, he] at h
  obtain ⟨w₁, hw₁, h⟩ := bind_eq_ok.mp h
  obtain rfl := ok.inj h
  exact ⟨w₁, hw₁, rfl, rfl, rfl⟩

theorem writeFrame_pcap {s f : ℕ} {snapLen lt : UInt32} (hs : w.state = .pcap e p snapLen lt)
    (hp : w.prepareFrame fr = .ok plan) (he : plan.encoding = .pcap s f)
    (h : w.writeFrame fr = .ok w') : w'.state = w.state ∧ w'.maxSize = w.maxSize ∧
      w'.output = w.output ++ writePcapFrame e s f fr := by
  obtain ⟨plan', hp', h⟩ := bind_eq_ok.mp h
  obtain rfl : plan = plan' := ok.inj (hp.symm.trans hp')
  rw [hs, he] at h
  obtain rfl := ok.inj h
  exact ⟨hs.symm, rfl, rfl⟩

variable (hrm : w.state.interfaces.length ≤ 2 ^ 32)
include hrm

theorem adds_writeFrame (hp : w.prepareFrame fr = .ok plan) (h : w.writeFrame fr = .ok w') :
    w.Adds (plan.encoding.written fr) [plan.encoding.stored fr] w' := by
  cases hs : w.state with
  | pcap e p snapLen lt =>
    obtain ⟨s, fraction, hf, he, -⟩ := prepareFrame_pcap hs hp
    obtain ⟨hsm, -, ho⟩ := writeFrame_pcap hs hp he h
    rw [he]
    exact ⟨.of_state_eq hsm, extends_pcapFrame hs hf ho hsm⟩
  | pcapNg e interfaces =>
    rw [hs] at hrm
    obtain ⟨c, t, ticks, blockLength, hc, hsp, htm, htc, hlen, hwr,
      he, -⟩ := prepareFrame_pcapNg hs hp
    obtain ⟨w₁, hw₁, hsm, -, ho⟩ := writeFrame_pcapNg hs hp he h
    rw [he]
    obtain ⟨hid, hln, ⟨hold, hso⟩ | ⟨hnew, hi, hl, -⟩⟩ := selectInterface_ok hc hrm
    · -- The frame has an interface already.
      rw [hold] at hw₁ ⊢
      cases hw₁
      exact ⟨.of_state_eq hsm, extends_packet hso hln hsp htm htc hid hlen hwr hs ho hsm⟩
    · -- The description of a new interface comes first.
      rw [hnew] at hw₁ ⊢
      have hso : (interfaces ++ [c.description])[c.id]? = some c.description := by
        rw [hi, getElem?_concat_length]
      have hin : w.Adds [.ofInterface c.description []] [] w₁ :=
        ⟨grows_writeInterface hs (hi ▸ hid) hw₁,
          extends_writeInterface hs (by simp) hl (hi ▸ hid) hw₁⟩
      exact hin.trans ⟨.of_state_eq hsm, extends_packet hso hln hsp htm htc hid
        hlen hwr (writeInterface_ok hw₁).1 ho hsm⟩

/-! ### Runs -/

theorem adds_apply {op : Op} (h : w.apply op = .ok (ids, written, frames, w')) :
    w.Adds written frames w' := by
  cases op with
  | addInterface lt =>
    obtain ⟨snapLen, hs, h⟩ := bind_eq_ok.mp h
    obtain ⟨⟨id, w₁⟩, hw₁, h⟩ := bind_eq_ok.mp h
    cases h
    rw [Writer.addInterface, hs] at hw₁
    exact adds_addInterfaceDescription hw₁
  | addInterfaceDescription ds options =>
    obtain ⟨⟨id, w₁⟩, hw₁, h⟩ := bind_eq_ok.mp h
    cases h
    exact adds_addInterfaceDescription hw₁
  | writeFrame fr =>
    obtain ⟨plan, hp, h⟩ := bind_eq_ok.mp h
    obtain ⟨w₁, hw₁, h⟩ := bind_eq_ok.mp h
    cases h
    exact adds_writeFrame hrm hp hw₁

theorem adds_run {ops : List Op} (h : w.run ops = .ok (ids, written, frames, w')) :
    w.Adds written frames w' := by
  induction ops generalizing w ids written frames with
  | nil =>
    cases h
    refine ⟨.of_state_eq rfl, fun _ => .refl _ _ _⟩
  | cons op ops ih =>
    obtain ⟨⟨ids₁, written₁, frames₁, w₁⟩, ho, h⟩ := bind_eq_ok.mp h
    obtain ⟨⟨ids₂, written₂, frames₂, w₂⟩, hops, h⟩ := bind_eq_ok.mp h
    cases h
    have ha := adds_apply hrm ho
    exact ha.trans (ih (ha.grows.room hrm) hops)

theorem interfaces_writeFrame (hp : w.prepareFrame fr = .ok plan) (h : w.writeFrame fr = .ok w') :
    w'.state.interfaces = w.state.interfaces ++
        ((Op.writeFrame fr).describes w.maxSize w.state.interfaces).toList ∧
      w'.maxSize = w.maxSize := by
  cases hs : w.state with
  | pcap e p snapLen lt =>
    obtain ⟨s, fraction, hf, he, -⟩ := prepareFrame_pcap hs hp
    obtain ⟨hsm, hsz, -⟩ := writeFrame_pcap hs hp he h
    obtain ⟨-, -, hln, -⟩ := validatePcapFrame_ok hf
    rw [hsm, hs, Op.describes, if_neg fun hn => hn.2 _ mem_cons_self hln.symm]
    exact ⟨(append_nil _).symm, hsz⟩
  | pcapNg e interfaces =>
    rw [hs] at hrm
    obtain ⟨c, t, ticks, blockLength, hc, -, -, -, -, -, he, -⟩ := prepareFrame_pcapNg hs hp
    obtain ⟨w₁, hw₁, hsm, hsz, -⟩ := writeFrame_pcapNg hs hp he h
    obtain ⟨-, hln, ⟨hold, hso⟩ | ⟨hnew, -, -, hd⟩⟩ := selectInterface_ok hc hrm
    · rw [hold] at hw₁
      cases hw₁
      rw [hsm, hs, Op.describes, if_neg fun hn => hn.2 _ (mem_of_getElem? hso) hln]
      exact ⟨(append_nil _).symm, hsz⟩
    · rw [hnew] at hw₁
      obtain ⟨hst, hsz₁⟩ := writeInterface_ok hw₁
      rw [hsm, hst, show WriterState.interfaces (.pcapNg e interfaces) = interfaces from rfl, hd]
      exact ⟨rfl, hsz.trans hsz₁⟩

omit hrm in
theorem interfaces_addInterfaceDescription
    (h : w.addInterfaceDescriptionWithOptions ds options = .ok (id, w')) :
    id = w.state.interfaces.length ∧ w'.state.interfaces = w.state.interfaces ++ [ds] ∧
      w'.maxSize = w.maxSize := by
  obtain ⟨-, e, interfaces, hs, hid, -, -, hw⟩ := addInterfaceDescriptionWithOptions_ok h
  obtain ⟨hst, hsz⟩ := writeInterface_ok hw
  rw [hst, hs]
  exact ⟨hid, rfl, hsz⟩

theorem interfaces_apply {op : Op} (h : w.apply op = .ok (ids, written, frames, w')) :
    ids = op.position w.state.interfaces ∧ w'.state.interfaces =
      w.state.interfaces ++ (op.describes w.maxSize w.state.interfaces).toList ∧
      w'.maxSize = w.maxSize := by
  cases op with
  | addInterface lt =>
    obtain ⟨snapLen, hs, h⟩ := bind_eq_ok.mp h
    obtain ⟨⟨id, w₁⟩, hw₁, h⟩ := bind_eq_ok.mp h
    cases h
    rw [Writer.addInterface, hs, ok_bind] at hw₁
    obtain ⟨rfl, hi⟩ := interfaces_addInterfaceDescription hw₁
    rw [usizeToU32Limit_ok hs] at hi
    exact ⟨rfl, hi⟩
  | addInterfaceDescription ds options =>
    obtain ⟨⟨id, w₁⟩, hw₁, h⟩ := bind_eq_ok.mp h
    cases h
    obtain ⟨rfl, hi⟩ := interfaces_addInterfaceDescription hw₁
    exact ⟨rfl, hi⟩
  | writeFrame fr =>
    obtain ⟨plan, hp, h⟩ := bind_eq_ok.mp h
    obtain ⟨w₁, hw₁, h⟩ := bind_eq_ok.mp h
    cases h
    exact ⟨rfl, interfaces_writeFrame hrm hp hw₁⟩

/-- The positions returned and the interfaces of the writer are those that were asked for. -/
theorem requested_run {ops : List Op} (h : w.run ops = .ok (ids, written, frames, w')) :
    (ids, w'.state.interfaces) = requested w.maxSize w.state.interfaces ops := by
  induction ops generalizing w ids written frames with
  | nil =>
    cases h
    rfl
  | cons op ops ih =>
    obtain ⟨⟨ids₁, written₁, frames₁, w₁⟩, ho, h⟩ := bind_eq_ok.mp h
    obtain ⟨⟨ids₂, written₂, frames₂, w₂⟩, hops, h⟩ := bind_eq_ok.mp h
    cases h
    obtain ⟨rfl, hi, hsz⟩ := interfaces_apply hrm ho
    have hr := ih ((adds_apply hrm ho).grows.room hrm) hops
    rw [hi, hsz] at hr
    rw [requested, ← hr]

end Operations

/-! ### Files -/

/-- A writer that was just opened, with the interfaces of its header and the largest size of a
block. -/
inductive Writer.Opened : List Interface → ℕ → Writer → Prop
  | pcap {linkType endianness resolution snapLen maxSize streamLimits w}
    (h : pcapWithOptions linkType endianness resolution snapLen maxSize streamLimits = .ok w) :
    Opened [⟨linkType, UInt32.ofNat snapLen, resolution, 0⟩] maxSize w
  | pcapNg {endianness maxSize maxInterfaces streamLimits w}
    (h : pcapngWithOptions endianness maxSize maxInterfaces streamLimits = .ok w) :
    Opened [] maxSize w

section Files

variable {limits : ReaderLimits} {w w' : Writer} {headers : List Interface} {maxSize : ℕ}

theorem resolution_of_classicPrecision {resolution : TimestampResolution}
    {precision : TimestampPrecision} (h : classicPrecision resolution = .ok precision) :
    precision.resolution = resolution := by
  unfold classicPrecision at h
  split at h
  · split_ifs at h with h₆ h₉
    · cases h
      rw [h₆]
      rfl
    · cases h
      rw [h₉]
      rfl
  · cases h

/-- A new writer has the interfaces of its header, and a reader opens its file. -/
theorem Writer.Opened.opens (h : Opened headers maxSize w) :
    w.state.interfaces = headers ∧ w.maxSize = maxSize ∧ headers.length ≤ 2 ^ 32 ∧
      (limits.Admits w.state [] → ∀ rest, ∃ r, withLimits (w.output ++ rest) limits = .ok r ∧
        r.rest = rest ∧ Matches limits w.state [] r) := by
  cases h with
  | @pcap _ e _ _ _ _ _ h =>
    obtain ⟨_, _, h⟩ := bind_eq_ok.mp h
    obtain ⟨hln, h⟩ := rejectIf_bind_eq_ok.mp h
    obtain ⟨precision, hp, h⟩ := bind_eq_ok.mp h
    obtain ⟨snapLen, hsn, h⟩ := bind_eq_ok.mp h
    obtain ⟨hsp, h⟩ := rejectIf_bind_eq_ok.mp h
    obtain rfl := ok.inj h
    rw [← usizeToU32Limit_ok hsn, ← resolution_of_classicPrecision hp]
    refine ⟨rfl, rfl, Nat.one_le_two_pow, fun ha rest => ?_⟩
    obtain ⟨r, hr, hrs, hs, hi, hl, hrd⟩ :=
      withLimits_writePcapHeader e precision rest ha.interfaces hsp (Nat.not_lt.mp hln)
    exact ⟨r, hr, hrs, hl, hrd, hi, hs⟩
  | @pcapNg e _ _ _ _ h =>
    obtain ⟨_, _, h⟩ := bind_eq_ok.mp h
    obtain ⟨-, h⟩ := rejectIf_bind_eq_ok.mp h
    obtain rfl := ok.inj h
    refine ⟨rfl, rfl, Nat.zero_le _, fun ha rest => ?_⟩
    obtain ⟨r, hr, hrs, hs, hi, hl, hrd⟩ :=
      withLimits_writeSectionHeader e rest (ha.section_le rfl).2
    exact ⟨r, hr, hrs, hl, hrd, hi, hs⟩

/-- A reader that has read all that was written reports the end of its input. -/
theorem Matches.nextRecord {state : WriterState} {written : List Written} {r : Reader}
    (h : Matches limits state written r) (hr : r.rest = []) :
    r.nextRecord = (.ok none, { r with finished := true }) := by
  have hn : r.readRecord = .ok none := by
    rw [readRecord, h.state, hr]
    cases state <;> rfl
  simp only [Reader.nextRecord, h.reading, Bool.false_eq_true, if_false, hn]

/-- Whatever is written to a new file is read back. Reading reaches the end of the input without an
error; it finds the interfaces of the header and those that the operations ask for, each at the
position that its operation has returned, and the frames in their order, each with the interface that
the writer has chosen for it. -/
theorem Writer.read_run {ops : List Op} {ids : List ℕ} {written : List Written}
    {frames : List Frame} (hopened : Opened headers maxSize w)
    (hrun : w.run ops = .ok (ids, written, frames, w'))
    (hadmits : limits.Admits w'.state written) :
    ∃ (r : Reader) (records : List CaptureRecord) (r' : Reader),
      withLimits w'.output limits = .ok r ∧
      r.calls (records.length + 1) =
        (records.map (fun record => .ok (some record)) ++ [.ok none], r') ∧
      (ids, r'.interfaces) = requested maxSize headers ops ∧
      records.filterMap CaptureRecord.frame = frames := by
  obtain ⟨hhd, hsz, hrm, ho⟩ := hopened.opens
  rw [← hhd] at hrm
  have ha := adds_run hrm hrun
  have hs : limits.Admits w.state [] :=
    (show limits.Admits w'.state ([] ++ written) from hadmits).of_grows ha.grows
  obtain ⟨c, hot, hrd⟩ := ha.reads (show limits.Admits w'.state ([] ++ written) from hadmits)
  obtain ⟨r, hoe, hrs, hr⟩ := ho hs c
  obtain ⟨records, r', hrt, hrs', hr', hf⟩ := hrd r [] hr (by rw [hrs, append_nil])
  refine ⟨r, records, { r' with finished := true }, hot ▸ hoe, ?_, ?_, hf⟩
  · have hl : r'.calls 1 = ([.ok none], { r' with finished := true }) := by
      rw [calls, hr'.nextRecord hrs']
      rfl
    rw [calls_add, show r.calls records.length = _ from hrt, hl]
  · rw [← hhd, ← hsz, ← requested_run hrm hrun, hr'.interfaces]

/-- A frame of three bytes at a quarter of a second. -/
def quarterFrame (interface : Option UInt32) (direction : Option Direction) : Frame where
  timestamp := some ⟨101250000000, by decide, by decide⟩
  originalLength := 60
  linkType := 1
  interface
  direction
  bytes := [1, 2, 3]
  captured_le := by decide
  original_lt := by decide

/-- An interface whose ticks are quarters of a second after the first hundred seconds, one that the
writer adds for a frame of another link type, and frames for both. -/
def quarterOps : List Op :=
  [.addInterfaceDescription ⟨1, 0, .binary 2, 100⟩ [⟨optionComment, [0x61]⟩],
    .writeFrame (quarterFrame none (some .inbound)),
    .writeFrame { quarterFrame none none with linkType := 101 },
    .writeFrame (quarterFrame (some 0) none)]

def quarterLimits : ReaderLimits := ⟨4096, 2, 2, 8, 4096, 4⟩

theorem Writer.read_run_quarterOps : ∃ (w w' : Writer) (written : List Written) (r : Reader)
    (records : List CaptureRecord) (r' : Reader), pcapngWithOptions .big 4096 4 ⟨4, 64⟩ = .ok w ∧
      w.run quarterOps = .ok ([0], written, [quarterFrame (some 0) (some .inbound),
        { quarterFrame (some 1) none with linkType := 101 }, quarterFrame (some 0) none], w') ∧
      withLimits w'.output quarterLimits = .ok r ∧
      r.calls (records.length + 1) =
        (records.map (fun record => .ok (some record)) ++ [.ok none], r') ∧
      r'.interfaces = [⟨1, 0, .binary 2, 100⟩, ⟨101, 4096, .decimal 9, 0⟩] ∧
      records.filterMap CaptureRecord.frame = [quarterFrame (some 0) (some .inbound),
        { quarterFrame (some 1) none with linkType := 101 }, quarterFrame (some 0) none] := by
  let written : List Written :=
    [.interface 52 3, .packet 48 1, .interface 32 1, .packet 36 0, .packet 36 0]
  obtain ⟨w, w', hw, hrun, hl⟩ : ∃ w w', pcapngWithOptions .big 4096 4 ⟨4, 64⟩ = .ok w ∧
      w.run quarterOps = .ok ([0], written, [quarterFrame (some 0) (some .inbound),
        { quarterFrame (some 1) none with linkType := 101 }, quarterFrame (some 0) none], w') ∧
      w'.state.interfaces.length = 2 := ⟨_, _, rfl, rfl, rfl⟩
  have ha : quarterLimits.Admits w'.state written :=
    { size := by decide
      options := by decide
      metadata := fun between hb _ =>
        ⟨hb.sublist.length_le.trans (by decide),
          (hb.sublist.map Written.length).sum_le_sum (by simp) |>.trans (by decide)⟩
      interfaces := by rw [hl]; decide
      section_le := fun _ => by rw [hl]; decide
      words := by decide }
  obtain ⟨r, records, r', ho, hc, hi, hf⟩ := read_run (.pcapNg hw) hrun ha
  exact ⟨w, w', _, r, records, r', hw, hrun, ho, hc, congrArg Prod.snd hi, hf⟩

end Files

end PacketCraftr.Capture
