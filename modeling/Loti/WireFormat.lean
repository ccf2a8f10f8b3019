import Loti.Library.Parsing
import Loti.Wire

/-!
The datagram format, read off the `Reader` and compared with the `Writer`: every reader
operation accepts exactly the writer's spellings, up to the two fields that are 64 bits
wide on the wire and 32 bits wide in memory.
-/

namespace Loti.Wire

open Parsing StateExcept BigEndian

def Buffer.Addressable (buffer : Buffer) : Prop :=
  (buffer.wordBits = 32 ∨ buffer.wordBits = 64) ∧ buffer.bytes.length < 2 ^ (buffer.wordBits - 1)

instance (buffer : Buffer) : Decidable buffer.Addressable := inferInstanceAs (Decidable (_ ∧ _))

theorem Buffer.Addressable.word {buffer : Buffer} (fits : buffer.Addressable) :
    2 ^ 32 ≤ 2 ^ buffer.wordBits :=
  Nat.pow_le_pow_right (by decide) (by rcases fits.1 with bits | bits <;> omega)

theorem Buffer.Addressable.half {buffer : Buffer} (fits : buffer.Addressable) :
    2 * buffer.bytes.length < 2 ^ buffer.wordBits := by
  have double : 2 ^ buffer.wordBits = 2 * 2 ^ (buffer.wordBits - 1) := by
    rw [← Nat.pow_succ']
    congr 1
    rcases fits.1 with bits | bits <;> omega
  have short := fits.2
  omega

/-! Every blob and every list of an object has fewer than `2 ^ 32` elements. -/

def RefsFit (references : List EventReference) : Prop :=
  references.length < 2 ^ 32 ∧ ∀ reference ∈ references, reference.hash.length < 2 ^ 32

def EventFits (e : Event) : Prop :=
  e.hash.length < 2 ^ 32 ∧ e.data.length < 2 ^ 32 ∧ RefsFit e.referencedEvents ∧
    e.signature.length < 2 ^ 32

def ClockEventFits (c : ClockEvent) : Prop :=
  c.hash.length < 2 ^ 32 ∧ RefsFit c.referencedEvents ∧ c.signature.length < 2 ^ 32

def ClockEventsFit (clockEvents : List ClockEvent) : Prop :=
  clockEvents.length < 2 ^ 32 ∧ ∀ c ∈ clockEvents, ClockEventFits c

def ChainFits (ch : EventChain) : Prop :=
  EventFits ch.event ∧ ClockEventsFit ch.lowerBound ∧ ClockEventsFit ch.upperBound

def Payload.Fits : Payload → Prop
  | .clockNotification m =>
      m.lastClockEventHash.length < 2 ^ 32 ∧ m.neighborLastClockEventHash.length < 2 ^ 32
  | .chainRequest m => m.event.hash.length < 2 ^ 32 ∧ m.path.length < 2 ^ 32
  | .chainResponse m => ChainFits m.chain ∧ m.path.length < 2 ^ 32

instance (references : List EventReference) : Decidable (RefsFit references) :=
  inferInstanceAs (Decidable (_ ∧ _))

instance (e : Event) : Decidable (EventFits e) := inferInstanceAs (Decidable (_ ∧ _))

instance (c : ClockEvent) : Decidable (ClockEventFits c) := inferInstanceAs (Decidable (_ ∧ _))

instance (clockEvents : List ClockEvent) : Decidable (ClockEventsFit clockEvents) :=
  inferInstanceAs (Decidable (_ ∧ _))

instance (ch : EventChain) : Decidable (ChainFits ch) := inferInstanceAs (Decidable (_ ∧ _))

instance : (payload : Payload) → Decidable payload.Fits
  | .clockNotification _ | .chainRequest _ | .chainResponse _ => inferInstanceAs (Decidable (_ ∧ _))

/-! The spellings of an object whose 32-bit fields stand on the wire as arbitrary 64-bit words. -/

def Writer.wideClockEvent (word : UInt64) (c : ClockEvent) : Bytes :=
  nodeId c.creator ++ blob c.hash ++ u64 word ++ u64 c.timestamp.toUInt64 ++ u64 c.salt ++
    refs c.referencedEvents ++ blob c.signature

def Writer.wideClockEvents (words : List UInt64) (clockEvents : List ClockEvent) : Bytes :=
  u32 (UInt32.ofNat clockEvents.length) ++ (List.zipWith wideClockEvent words clockEvents).flatten

/-- The fields of a payload that are 64 bits wide on the wire and 32 in memory, in wire order. -/
def Payload.narrow : Payload → List UInt32
  | .clockNotification m => [m.chain]
  | .chainRequest m => [m.hopLimit]
  | .chainResponse m =>
      m.chain.lowerBound.map ClockEvent.chain ++ m.chain.upperBound.map ClockEvent.chain

def Payload.wideBody (words : List UInt64) : Payload → Bytes
  | .clockNotification m =>
      words.flatMap Writer.u64 ++ Writer.blob m.lastClockEventHash ++
        Writer.blob m.neighborLastClockEventHash
  | .chainRequest m =>
      Writer.nodeId m.originator ++ Writer.nodeId m.event.creator ++ Writer.blob m.event.hash ++
        Writer.timeRange m.range ++ words.flatMap Writer.u64 ++ Writer.nodeIds m.path
  | .chainResponse m =>
      Writer.nodeId m.originator ++ Writer.event m.chain.event ++
        Writer.wideClockEvents (words.take m.chain.lowerBound.length) m.chain.lowerBound ++
        Writer.wideClockEvents (words.drop m.chain.lowerBound.length) m.chain.upperBound ++
        Writer.nodeIds m.path

def encodeWide (words : List UInt64) (datagram : Datagram) : Bytes :=
  writeHeader datagram.payload.type datagram.sender ++ datagram.payload.wideBody words

namespace Reader

variable {buffer : Buffer} {pos : Nat}

theorem need_ok_iff {count stop : Nat} :
    need buffer count pos = .ok () stop ↔
      stop = pos ∧ (pos + count) % 2 ^ buffer.wordBits ≤ buffer.bytes.length := by
  simp only [need, bind_ok_iff]
  constructor
  · rintro ⟨_, _, got, rest⟩
    obtain ⟨rfl, rfl⟩ := EStateM.Result.ok.inj got
    split at rest
    · cases rest
    · obtain ⟨-, rfl⟩ := EStateM.Result.ok.inj rest
      exact ⟨rfl, by omega⟩
  · rintro ⟨rfl, short⟩
    refine ⟨stop, stop, rfl, ?_⟩
    rw [if_neg (by omega)]
    rfl

theorem need_guards (fits : buffer.Addressable) {count : Nat} (small : count ≤ 16) :
    Guards buffer.bytes (need buffer count) count := by
  intro pos within stop
  have half := fits.half
  have word := fits.word
  rw [need_ok_iff, Nat.mod_eq_of_lt (by omega)]
  exact and_congr_right fun _ => by omega

theorem remaining_eq (fits : buffer.Addressable) (within : pos ≤ buffer.bytes.length) :
    (buffer.bytes.length + 2 ^ buffer.wordBits - pos) % 2 ^ buffer.wordBits =
    buffer.bytes.length - pos := by
  have half := fits.half
  have shifted : buffer.bytes.length + 2 ^ buffer.wordBits - pos =
      (buffer.bytes.length - pos) + 2 ^ buffer.wordBits := by omega
  rw [shifted, Nat.add_mod_right, Nat.mod_eq_of_lt (by omega)]

theorem ensureCount_guards (fits : buffer.Addressable) (count : UInt32) {least : Nat}
    (positive : 0 < least) : Guards buffer.bytes (ensureCount buffer count least)
    (count.toNat * least) := by
  intro pos within stop
  simp only [ensureCount, bind_ok_iff]
  rw [← Nat.le_div_iff_mul_le positive]
  constructor
  · rintro ⟨_, _, got, rest⟩
    obtain ⟨rfl, rfl⟩ := EStateM.Result.ok.inj got
    rw [remaining_eq fits within] at rest
    split at rest
    · cases rest
    · obtain ⟨-, rfl⟩ := EStateM.Result.ok.inj rest
      exact ⟨rfl, by omega⟩
  · rintro ⟨rfl, enough⟩
    refine ⟨stop, stop, rfl, ?_⟩
    rw [remaining_eq fits within, if_neg (by omega)]
    rfl

theorem next_ok_iff {byte : UInt8} {stop : Nat} :
    next buffer pos = .ok byte stop ↔
      buffer.bytes[pos]? = some byte ∧ stop = (pos + 1) % 2 ^ buffer.wordBits := by
  cases found : buffer.bytes[pos]? with
  | none => simp [next, bind_ok_iff, get_run, found, throw_run]
  | some value =>
      simp only [next, bind_ok_iff]
      constructor
      · rintro ⟨_, _, got, rest⟩
        obtain ⟨rfl, rfl⟩ := EStateM.Result.ok.inj got
        rw [found] at rest
        obtain ⟨_, _, moved, returned⟩ := bind_ok_iff.mp rest
        obtain ⟨rfl, rfl⟩ := EStateM.Result.ok.inj returned
        obtain ⟨-, rfl⟩ := EStateM.Result.ok.inj moved
        exact ⟨rfl, rfl⟩
      · rintro ⟨same, rfl⟩
        cases same
        refine ⟨pos, pos, rfl, ?_⟩
        rw [found]
        rfl

theorem next_parses (fits : buffer.Addressable) :
    Parses buffer.bytes (next buffer) fun byte text => text = [byte] := by
  intro pos within byte stop
  have half := fits.half
  have stands : [byte] <+: buffer.bytes.drop pos ↔ buffer.bytes[pos]? = some byte := by
    rw [← List.head?_drop]
    cases buffer.bytes.drop pos <;> simp [List.cons_prefix_cons, eq_comm]
  rw [next_ok_iff, ← stands]
  constructor
  · rintro ⟨standing, rfl⟩
    have inside := prefix_drop_length within standing
    rw [List.length_singleton] at inside
    exact ⟨[byte], rfl, standing, Nat.mod_eq_of_lt (by omega)⟩
  · rintro ⟨_, rfl, standing, rfl⟩
    have inside := prefix_drop_length within standing
    rw [List.length_singleton] at inside ⊢
    exact ⟨standing, (Nat.mod_eq_of_lt (by omega)).symm⟩

theorem times_parses {α : Type} {read : ReadM α} {spells : α → Bytes → Prop}
    (parses : Parses buffer.bytes read spells) (count : Nat) :
    Parses buffer.bytes (times read count) fun values text =>
      values.length = count ∧ SpellsAll spells values text := by
  induction count with
  | zero =>
      refine parses_pure.congr fun values text => ?_
      constructor
      · rintro ⟨rfl, rfl⟩
        exact ⟨rfl, .nil⟩
      · rintro ⟨empty, all⟩
        obtain rfl := List.length_eq_zero_iff.mp empty
        cases all
        exact ⟨rfl, rfl⟩
  | succ count ih =>
      refine (parses.bind fun first => ih.map).congr fun values text => ?_
      constructor
      · rintro ⟨first, front, back, spelled, ⟨rest, ⟨rfl, all⟩, rfl⟩, rfl⟩
        exact ⟨rfl, .cons spelled all⟩
      · rintro ⟨size, all⟩
        cases all with
        | nil => cases size
        | cons spelled all => exact ⟨_, _, _, spelled, ⟨_, ⟨Nat.succ.inj size, all⟩, rfl⟩, rfl⟩

section

variable (fits : buffer.Addressable)

include fits

theorem bytes_parses {count : Nat} (small : count ≤ 16) :
    Parses buffer.bytes (need buffer count >>= fun _ => times (next buffer) count) fun bytes text =>
      bytes.length = count ∧ text = bytes := by
  have taken : Parses buffer.bytes (times (next buffer) count) fun bytes text =>
      bytes.length = count ∧ text = bytes := by
    refine (times_parses (next_parses fits) count).congr fun bytes text =>
      and_congr_right fun _ => ?_
    have spelled := @spellsAll_function_iff UInt8 UInt8 (fun _ => True)
      (fun byte => [byte]) bytes text
    simpa using spelled
  refine taken.guarded (need_guards fits small) fun bytes text => ?_
  rintro ⟨rfl, rfl⟩
  exact Nat.le_refl _

theorem u8_parses :
    Parses buffer.bytes (u8 buffer) fun value text => text = Writer.u8 value := by
  refine (next_parses fits).guarded (need_guards fits (by decide)) ?_
  rintro value _ rfl
  exact Nat.le_refl _

theorem u32_parses :
    Parses buffer.bytes (u32 buffer) fun value text => text = Writer.u32 value := by
  unfold u32
  rw [← bind_assoc]
  refine (bytes_parses fits (by decide)).map.congr fun value text => ?_
  constructor
  · rintro ⟨bytes, ⟨size, rfl⟩, rfl⟩
    have bound := value_lt text
    rw [size] at bound
    rw [Writer.u32, UInt32.toNat_ofNat_of_lt' bound, digits_value size]
  · rintro rfl
    refine ⟨Writer.u32 value, ⟨digits_length _ _, rfl⟩, ?_⟩
    rw [Writer.u32, value_digits, Nat.mod_eq_of_lt (show value.toNat < 256 ^ 4 from value.toNat_lt),
      UInt32.ofNat_toNat]

theorem u64_parses :
    Parses buffer.bytes (u64 buffer) fun value text => text = Writer.u64 value := by
  unfold u64
  rw [← bind_assoc]
  refine (bytes_parses fits (by decide)).map.congr fun value text => ?_
  constructor
  · rintro ⟨bytes, ⟨size, rfl⟩, rfl⟩
    have bound := value_lt text
    rw [size] at bound
    rw [Writer.u64, UInt64.toNat_ofNat_of_lt' bound, digits_value size]
  · rintro rfl
    refine ⟨Writer.u64 value, ⟨digits_length _ _, rfl⟩, ?_⟩
    rw [Writer.u64, value_digits, Nat.mod_eq_of_lt (show value.toNat < 256 ^ 8 from value.toNat_lt),
      UInt64.ofNat_toNat]

theorem nodeId_parses :
    Parses buffer.bytes (nodeId buffer) fun id text => text = Writer.nodeId id := by
  unfold nodeId
  rw [← bind_assoc]
  have checked : ∀ bytes : Bytes, Parses buffer.bytes
      (if size : bytes.length = 16 then pure ⟨bytes, size⟩
        else throw .undefinedBehavior : ReadM NodeId)
      fun id text => id.bytes = bytes ∧ text = [] := by
    intro bytes
    split
    · refine parses_pure.congr fun id text => and_congr_left fun _ => ?_
      exact ⟨fun same => by rw [same], fun same => NodeId.ext_bytes same⟩
    · refine parses_throw.congr fun id text => ⟨False.elim, ?_⟩
      rintro ⟨rfl, -⟩
      exact absurd id.size ‹_›
  refine ((bytes_parses fits (by decide)).bind checked).congr fun id text => ?_
  constructor
  · rintro ⟨bytes, _, _, ⟨-, rfl⟩, ⟨rfl, rfl⟩, rfl⟩
    exact List.append_nil _
  · rintro rfl
    exact ⟨id.bytes, id.bytes, [], ⟨id.size, rfl⟩, ⟨rfl, rfl⟩, (List.append_nil _).symm⟩

end

def slice (buffer : Buffer) (count : UInt32) : ReadM Bytes := do
  need buffer count.toNat
  let pos ← get
  let stop := (pos + count.toNat) % 2 ^ buffer.wordBits
  if pos ≤ stop ∧ stop ≤ buffer.bytes.length then
    set stop
    return (buffer.bytes.take stop).drop pos
  else
    throw .undefinedBehavior

theorem blob_eq (buffer : Buffer) : blob buffer = u32 buffer >>= slice buffer := rfl

section

variable (fits : buffer.Addressable)

include fits

theorem slice_range_iff (within : pos ≤ buffer.bytes.length) (count : UInt32) :
    (pos ≤ (pos + count.toNat) % 2 ^ buffer.wordBits ∧
      (pos + count.toNat) % 2 ^ buffer.wordBits ≤ buffer.bytes.length) ↔
        pos + count.toNat ≤ buffer.bytes.length := by
  have half := fits.half
  have word := fits.word
  have bound := count.toNat_lt
  by_cases wraps : pos + count.toNat < 2 ^ buffer.wordBits
  · rw [Nat.mod_eq_of_lt wraps]
    omega
  · rw [Nat.mod_eq_sub_mod (by omega), Nat.mod_eq_of_lt (by omega)]
    omega

theorem slice_parses (count : UInt32) :
    Parses buffer.bytes (slice buffer count) fun bytes text => bytes.length = count.toNat ∧
    text = bytes := by
  intro pos within bytes stop
  have half := fits.half
  have inside := slice_range_iff fits within count
  unfold slice
  rw [bind_ok_iff]
  constructor
  · rintro ⟨_, _, passed, rest⟩
    obtain ⟨same, -⟩ := need_ok_iff.mp passed
    obtain ⟨_, _, got, rest⟩ := bind_ok_iff.mp rest
    obtain ⟨value, state⟩ := EStateM.Result.ok.inj got
    rw [← value, ← state, same] at rest
    split at rest
    next valid =>
      obtain ⟨rfl, rfl⟩ := EStateM.Result.ok.inj rest
      have enough := inside.mp valid
      rw [Nat.mod_eq_of_lt (by omega)]
      have size : ((buffer.bytes.take (pos + count.toNat)).drop pos).length = count.toNat := by
        rw [List.length_drop, List.length_take]
        omega
      refine ⟨_, ⟨size, rfl⟩, ?_, by rw [size]⟩
      rw [List.drop_take]
      exact List.take_prefix _ _
    next => cases rest
  · rintro ⟨_, ⟨size, rfl⟩, stands, rfl⟩
    have enough := prefix_drop_length within stands
    rw [size] at enough ⊢
    have straight : (pos + count.toNat) % 2 ^ buffer.wordBits = pos + count.toNat :=
      Nat.mod_eq_of_lt (by omega)
    refine ⟨(), pos, need_ok_iff.mpr ⟨rfl, by omega⟩, bind_ok_iff.mpr ⟨pos, pos, rfl, ?_⟩⟩
    rw [if_pos (inside.mpr enough), straight, List.drop_take, Nat.add_sub_cancel_left, ← size,
      ← List.prefix_iff_eq_take.mp stands, size]
    rfl

theorem blob_parses :
    Parses buffer.bytes (blob buffer) fun bytes text => bytes.length < 2 ^ 32 ∧
    text = Writer.blob bytes := by
  refine ((u32_parses fits).bind fun count => slice_parses fits count).congr fun bytes text => ?_
  constructor
  · rintro ⟨count, _, _, rfl, ⟨size, rfl⟩, rfl⟩
    refine ⟨size ▸ count.toNat_lt, ?_⟩
    rw [Writer.blob, size, UInt32.ofNat_toNat]
  · rintro ⟨short, rfl⟩
    exact ⟨UInt32.ofNat bytes.length, _, _, rfl, ⟨(UInt32.toNat_ofNat_of_lt' short).symm, rfl⟩, rfl⟩

theorem counted_parses {α : Type} {read : ReadM α} {spells : α → Bytes → Prop} {least : Nat}
    (parses : Parses buffer.bytes read spells) (positive : 0 < least)
    (long : ∀ value text, spells value text → least ≤ text.length) :
    Parses buffer.bytes (do
      let count ← u32 buffer
      ensureCount buffer count least
      times read count.toNat) fun values text =>
        values.length < 2 ^ 32 ∧ ∃ items, SpellsAll spells values items ∧
          text = Writer.u32 (UInt32.ofNat values.length) ++ items := by
  have body : ∀ count : UInt32, Parses buffer.bytes (do
      ensureCount buffer count least
      times read count.toNat) fun values text => values.length = count.toNat ∧
      SpellsAll spells values text := by
    intro count
    refine (times_parses parses count.toNat).guarded (ensureCount_guards fits count positive) ?_
    rintro values text ⟨size, all⟩
    rw [← size]
    exact spellsAll_length long all
  refine ((u32_parses fits).bind body).congr fun values text => ?_
  constructor
  · rintro ⟨count, _, items, rfl, ⟨size, all⟩, rfl⟩
    exact ⟨size ▸ count.toNat_lt, items, all, by rw [size, UInt32.ofNat_toNat]⟩
  · rintro ⟨short, items, all, rfl⟩
    exact ⟨UInt32.ofNat values.length, _, _, rfl,
      ⟨(UInt32.toNat_ofNat_of_lt' short).symm, all⟩, rfl⟩

theorem refs_parses :
    Parses buffer.bytes (refs buffer) fun references text =>
      RefsFit references ∧ text = Writer.refs references := by
  have one : Parses buffer.bytes (do
      let creator ← nodeId buffer
      let hash ← blob buffer
      return (⟨creator, hash⟩ : EventReference)) fun reference text =>
        reference.hash.length < 2 ^ 32 ∧
          text = Writer.nodeId reference.creator ++ Writer.blob reference.hash := by
    refine ((nodeId_parses fits).bind fun creator => (blob_parses fits).map).congr
      fun reference text => ?_
    constructor
    · rintro ⟨creator, _, _, rfl, ⟨hash, ⟨short, rfl⟩, rfl⟩, rfl⟩
      exact ⟨short, rfl⟩
    · rintro ⟨short, rfl⟩
      exact ⟨reference.creator, _, _, rfl, ⟨reference.hash, ⟨short, rfl⟩, rfl⟩, rfl⟩
  refine (counted_parses fits one (by decide) ?_).congr fun references text => ?_
  · rintro reference _ ⟨-, rfl⟩
    simp only [Writer.nodeId, Writer.blob, Writer.u32, List.length_append, digits_length,
      reference.creator.size]
    omega
  · simp only [spellsAll_function_iff, RefsFit, Writer.refs, and_assoc, exists_eq_left,
      exists_and_left]

theorem event_parses :
    Parses buffer.bytes (event buffer) fun e text => EventFits e ∧ text = Writer.event e := by
  refine ((nodeId_parses fits).bind fun creator => (blob_parses fits).bind fun hash =>
    (blob_parses fits).bind fun data => (u64_parses fits).bind fun salt =>
      (refs_parses fits).bind fun refs =>
      (blob_parses fits).map).congr fun e text => ?_
  constructor
  · rintro ⟨creator, _, _, rfl, ⟨hash, _, _, ⟨hashFits, rfl⟩, ⟨data, _, _, ⟨dataFits, rfl⟩,
      ⟨salt, _, _, rfl,
        ⟨references, _, _, ⟨refsFit, rfl⟩, ⟨signature, ⟨signatureFits, rfl⟩, rfl⟩, rfl⟩,
      rfl⟩, rfl⟩, rfl⟩, rfl⟩
    exact ⟨⟨hashFits, dataFits, refsFit, signatureFits⟩, by simp only [Writer.event,
      List.append_assoc]⟩
  · rintro ⟨⟨hashFits, dataFits, refsFit, signatureFits⟩, rfl⟩
    exact ⟨e.creator, _, _, rfl, ⟨e.hash, _, _, ⟨hashFits, rfl⟩, ⟨e.data, _, _, ⟨dataFits, rfl⟩,
      ⟨e.salt, _, _, rfl, ⟨e.referencedEvents, _, _, ⟨refsFit, rfl⟩,
      ⟨e.signature, ⟨signatureFits, rfl⟩, rfl⟩, rfl⟩, rfl⟩, rfl⟩, rfl⟩,
      by simp only [Writer.event, List.append_assoc]⟩

theorem clockEvent_parses :
    Parses buffer.bytes (clockEvent buffer) fun c text =>
      ∃ word : UInt64, word.toUInt32 = c.chain ∧ ClockEventFits c ∧
        text = Writer.wideClockEvent word c := by
  refine ((nodeId_parses fits).bind fun creator => (blob_parses fits).bind fun hash =>
    (u64_parses fits).bind fun chain => (u64_parses fits).bind fun timestamp =>
      (u64_parses fits).bind fun salt =>
      (refs_parses fits).bind fun refs => (blob_parses fits).map).congr fun c text => ?_
  constructor
  · rintro ⟨creator, _, _, rfl,
      ⟨hash, _, _, ⟨hashFits, rfl⟩, ⟨chain, _, _, rfl, ⟨timestamp, _, _, rfl,
      ⟨salt, _, _, rfl,
        ⟨references, _, _, ⟨refsFit, rfl⟩, ⟨signature, ⟨signatureFits, rfl⟩, rfl⟩, rfl⟩,
      rfl⟩, rfl⟩, rfl⟩, rfl⟩, rfl⟩
    exact ⟨chain, rfl, ⟨hashFits, refsFit, signatureFits⟩,
      by simp only [Writer.wideClockEvent, List.append_assoc, UInt64.toUInt64_toInt64]⟩
  · rintro ⟨word, narrowed, ⟨hashFits, refsFit, signatureFits⟩, rfl⟩
    exact ⟨c.creator, _, _, rfl, ⟨c.hash, _, _, ⟨hashFits, rfl⟩, ⟨word, _, _, rfl,
      ⟨c.timestamp.toUInt64, _, _, rfl,
        ⟨c.salt, _, _, rfl, ⟨c.referencedEvents, _, _, ⟨refsFit, rfl⟩,
      ⟨c.signature, ⟨signatureFits, rfl⟩, by rw [narrowed, Int64.toInt64_toUInt64]⟩, rfl⟩, rfl⟩,
        rfl⟩, rfl⟩, rfl⟩,
      by simp only [Writer.wideClockEvent, List.append_assoc]⟩

end

theorem wideClockEvents_iff {clockEvents : List ClockEvent} {text : Bytes} :
    SpellsAll (fun (c : ClockEvent) (spelling : Bytes) => ∃ word : UInt64,
        word.toUInt32 = c.chain ∧ ClockEventFits c ∧ spelling = Writer.wideClockEvent word c)
        clockEvents text ↔
      ∃ words : List UInt64, words.map UInt64.toUInt32 = clockEvents.map ClockEvent.chain ∧
        (∀ c ∈ clockEvents, ClockEventFits c) ∧
        text = (List.zipWith Writer.wideClockEvent words clockEvents).flatten := by
  constructor
  · intro all
    induction all with
    | nil => exact ⟨[], rfl, by simp, rfl⟩
    | cons spelled _ ih =>
        obtain ⟨word, narrowed, fit, rfl⟩ := spelled
        obtain ⟨words, narrow, fits, rfl⟩ := ih
        exact ⟨word :: words, by simp [narrowed, narrow], by simpa using ⟨fit, fits⟩, by simp⟩
  · rintro ⟨words, narrow, fits, rfl⟩
    induction clockEvents generalizing words with
    | nil =>
        obtain rfl := List.map_eq_nil_iff.mp narrow
        exact .nil
    | cons c rest ih =>
        cases words with
        | nil => cases narrow
        | cons word words =>
            obtain ⟨head, tail⟩ := List.cons.inj narrow
            rw [List.zipWith_cons_cons, List.flatten_cons]
            exact .cons ⟨word, head, fits c (by simp), rfl⟩
              (ih words tail fun later member => fits later (by simp [member]))

theorem clockEvents_parses (fits : buffer.Addressable) :
    Parses buffer.bytes (do
      let count ← u32 buffer
      ensureCount buffer count 44
      times (clockEvent buffer) count.toNat) fun clockEvents text =>
        ∃ words : List UInt64, words.map UInt64.toUInt32 = clockEvents.map ClockEvent.chain ∧
          ClockEventsFit clockEvents ∧ text = Writer.wideClockEvents words clockEvents := by
  refine (counted_parses fits (clockEvent_parses fits) (by decide) ?_).congr fun clockEvents text =>
    ?_
  · rintro c _ ⟨word, -, -, rfl⟩
    simp only [Writer.wideClockEvent, Writer.nodeId, Writer.blob, Writer.u64, Writer.u32,
      List.length_append, digits_length, c.creator.size]
    omega
  · simp only [wideClockEvents_iff]
    constructor
    · rintro ⟨short, _, ⟨words, narrow, each, rfl⟩, rfl⟩
      exact ⟨words, narrow, ⟨short, each⟩, rfl⟩
    · rintro ⟨words, narrow, ⟨short, each⟩, rfl⟩
      exact ⟨short, _, ⟨words, narrow, each, rfl⟩, rfl⟩

theorem chain_parses (fits : buffer.Addressable) :
    Parses buffer.bytes (chain buffer) fun ch text => ∃ lower upper : List UInt64,
      lower.map UInt64.toUInt32 = ch.lowerBound.map ClockEvent.chain ∧
      upper.map UInt64.toUInt32 = ch.upperBound.map ClockEvent.chain ∧ ChainFits ch ∧
      text = Writer.event ch.event ++ Writer.wideClockEvents lower ch.lowerBound ++
        Writer.wideClockEvents upper ch.upperBound := by
  have grouped : chain buffer = (do
      let event ← event buffer
      let lowerBound ← (do
        let count ← u32 buffer
        ensureCount buffer count 44
        times (clockEvent buffer) count.toNat)
      let upperBound ← (do
        let count ← u32 buffer
        ensureCount buffer count 44
        times (clockEvent buffer) count.toNat)
      return { event, lowerBound, upperBound }) := by
    simp only [chain, bind_assoc]
  rw [grouped]
  refine ((event_parses fits).bind fun event => (clockEvents_parses fits).bind fun lowerBound =>
    (clockEvents_parses fits).map).congr fun ch text => ?_
  constructor
  · rintro ⟨event, _, _, ⟨eventFits, rfl⟩, ⟨lowerBound, _, _, ⟨lower, lowerNarrow, lowerFits, rfl⟩,
      ⟨upperBound, ⟨upper, upperNarrow, upperFits, rfl⟩, rfl⟩, rfl⟩, rfl⟩
    exact ⟨lower, upper, lowerNarrow, upperNarrow, ⟨eventFits, lowerFits, upperFits⟩,
      by simp only [List.append_assoc]⟩
  · rintro ⟨lower, upper, lowerNarrow, upperNarrow, ⟨eventFits, lowerFits, upperFits⟩, rfl⟩
    exact ⟨ch.event, _, _, ⟨eventFits, rfl⟩,
      ⟨ch.lowerBound, _, _, ⟨lower, lowerNarrow, lowerFits, rfl⟩,
      ⟨ch.upperBound, ⟨upper, upperNarrow, upperFits, rfl⟩, rfl⟩,
      rfl⟩, by simp only [List.append_assoc]⟩

theorem timeRange_parses (fits : buffer.Addressable) :
    Parses buffer.bytes (timeRange buffer) fun range text => text = Writer.timeRange range := by
  refine ((u64_parses fits).bind fun lo => (u64_parses fits).map).congr fun range text => ?_
  constructor
  · rintro ⟨lo, _, _, rfl, ⟨hi, rfl, rfl⟩, rfl⟩
    simp only [Writer.timeRange, UInt64.toUInt64_toInt64]
  · rintro rfl
    exact ⟨range.lo.toUInt64, _, _, rfl,
      ⟨range.hi.toUInt64, rfl, by simp only [Int64.toInt64_toUInt64]⟩, rfl⟩

theorem nodeIds_parses (fits : buffer.Addressable) :
    Parses buffer.bytes (nodeIds buffer) fun ids text => ids.length < 2 ^ 32 ∧
    text = Writer.nodeIds ids := by
  have one : Parses buffer.bytes (nodeId buffer) fun id text => True ∧ text = Writer.nodeId id := by
    simpa using nodeId_parses fits
  refine (counted_parses fits one (by decide) ?_).congr fun ids text => ?_
  · rintro id _ ⟨-, rfl⟩
    exact Nat.le_of_eq id.size.symm
  · simp only [spellsAll_function_iff]
    simp only [implies_true, true_and, exists_eq_left, Writer.nodeIds]

end Reader

section Payloads

variable {buffer : Buffer}

theorem readClockNotification_parses (fits : buffer.Addressable) :
    Parses buffer.bytes (readClockNotification buffer) fun m text =>
      (Payload.clockNotification m).Fits ∧ ∃ words : List UInt64,
        words.map UInt64.toUInt32 = (Payload.clockNotification m).narrow ∧
        text = (Payload.clockNotification m).wideBody words := by
  refine ((Reader.u64_parses fits).bind fun chain => (Reader.blob_parses fits).bind fun last =>
    (Reader.blob_parses fits).map).congr fun m text => ?_
  constructor
  · rintro ⟨chain, _, _, rfl, ⟨last, _, _, ⟨lastFits, rfl⟩, ⟨theirs, ⟨theirsFits, rfl⟩, rfl⟩, rfl⟩,
      rfl⟩
    exact ⟨⟨lastFits, theirsFits⟩, [chain], rfl,
      by simp only [Payload.wideBody, List.flatMap_singleton, List.append_assoc]⟩
  · rintro ⟨⟨lastFits, theirsFits⟩, words, narrow, rfl⟩
    obtain ⟨chain, rfl, narrowed⟩ := List.map_eq_singleton_iff.mp narrow
    exact ⟨chain, _, _, rfl, ⟨m.lastClockEventHash, _, _, ⟨lastFits, rfl⟩,
      ⟨m.neighborLastClockEventHash, ⟨theirsFits, rfl⟩, by rw [narrowed]⟩, rfl⟩,
      by simp only [Payload.wideBody, List.flatMap_singleton, List.append_assoc]⟩

theorem readChainRequest_parses (fits : buffer.Addressable) :
    Parses buffer.bytes (readChainRequest buffer) fun m text => (Payload.chainRequest m).Fits ∧
      ∃ words : List UInt64, words.map UInt64.toUInt32 = (Payload.chainRequest m).narrow ∧
        text = (Payload.chainRequest m).wideBody words := by
  refine ((Reader.nodeId_parses fits).bind fun originator =>
    (Reader.nodeId_parses fits).bind fun creator =>
    (Reader.blob_parses fits).bind fun hash => (Reader.timeRange_parses fits).bind fun range =>
      (Reader.u64_parses fits).bind fun hopLimit => (Reader.nodeIds_parses fits).map).congr
        fun m text => ?_
  constructor
  · rintro ⟨originator, _, _, rfl,
      ⟨creator, _, _, rfl, ⟨hash, _, _, ⟨hashFits, rfl⟩, ⟨range, _, _, rfl,
      ⟨hopLimit, _, _, rfl, ⟨path, ⟨pathFits, rfl⟩, rfl⟩, rfl⟩, rfl⟩, rfl⟩, rfl⟩, rfl⟩
    exact ⟨⟨hashFits, pathFits⟩, [hopLimit], rfl,
      by simp only [Payload.wideBody, List.flatMap_singleton, List.append_assoc]⟩
  · rintro ⟨⟨hashFits, pathFits⟩, words, narrow, rfl⟩
    obtain ⟨hopLimit, rfl, narrowed⟩ := List.map_eq_singleton_iff.mp narrow
    exact ⟨m.originator, _, _, rfl,
      ⟨m.event.creator, _, _, rfl, ⟨m.event.hash, _, _, ⟨hashFits, rfl⟩,
      ⟨m.range, _, _, rfl, ⟨hopLimit, _, _, rfl, ⟨m.path, ⟨pathFits, rfl⟩, by rw [narrowed]⟩, rfl⟩,
        rfl⟩, rfl⟩, rfl⟩,
      by simp only [Payload.wideBody, List.flatMap_singleton, List.append_assoc]⟩

theorem readChainResponse_parses (fits : buffer.Addressable) :
    Parses buffer.bytes (readChainResponse buffer) fun m text => (Payload.chainResponse m).Fits ∧
      ∃ words : List UInt64, words.map UInt64.toUInt32 = (Payload.chainResponse m).narrow ∧
        text = (Payload.chainResponse m).wideBody words := by
  refine ((Reader.nodeId_parses fits).bind fun originator =>
    (Reader.chain_parses fits).bind fun chain =>
    (Reader.nodeIds_parses fits).map).congr fun m text => ?_
  constructor
  · rintro ⟨originator, _, _, rfl,
      ⟨ch, _, _, ⟨lower, upper, lowerNarrow, upperNarrow, chainFits, rfl⟩,
      ⟨path, ⟨pathFits, rfl⟩, rfl⟩, rfl⟩, rfl⟩
    have size : lower.length = ch.lowerBound.length := by
      simpa using congrArg List.length lowerNarrow
    refine ⟨⟨chainFits, pathFits⟩, lower ++ upper, ?_, ?_⟩
    · simp only [List.map_append, lowerNarrow, upperNarrow, Payload.narrow]
    · simp only [Payload.wideBody, ← size, List.take_left, List.drop_left, List.append_assoc]
  · rintro ⟨⟨chainFits, pathFits⟩, words, narrow, rfl⟩
    have lowerNarrow : (words.take m.chain.lowerBound.length).map UInt64.toUInt32 =
        m.chain.lowerBound.map ClockEvent.chain := by
      rw [List.map_take, narrow, Payload.narrow, List.take_left' (List.length_map _)]
    have upperNarrow : (words.drop m.chain.lowerBound.length).map UInt64.toUInt32 =
        m.chain.upperBound.map ClockEvent.chain := by
      rw [List.map_drop, narrow, Payload.narrow, List.drop_left' (List.length_map _)]
    exact ⟨m.originator, _, _, rfl,
      ⟨m.chain, _, _, ⟨_, _, lowerNarrow, upperNarrow, chainFits, rfl⟩,
      ⟨m.path, ⟨pathFits, rfl⟩, rfl⟩, rfl⟩, by simp only [Payload.wideBody, List.append_assoc]⟩

theorem tagged_parses {α : Type} {read : ReadM α} {make : α → Payload} {type : UInt8}
    (sender : NodeId) (parses : Parses buffer.bytes read fun m text => (make m).Fits ∧
      ∃ words : List UInt64, words.map UInt64.toUInt32 = (make m).narrow ∧
      text = (make m).wideBody words)
    (tagged : ∀ payload : Payload, payload.type = type ↔ ∃ m, payload = make m) :
    Parses buffer.bytes (do return ⟨sender, make (← read)⟩ : ReadM Datagram) fun datagram text =>
      datagram.sender = sender ∧ datagram.payload.type = type ∧ datagram.payload.Fits ∧
        ∃ words : List UInt64, words.map UInt64.toUInt32 = datagram.payload.narrow ∧
          text = datagram.payload.wideBody words := by
  refine parses.map.congr fun datagram text => ?_
  constructor
  · rintro ⟨m, ⟨mFits, spelled⟩, rfl⟩
    exact ⟨rfl, (tagged _).mpr ⟨m, rfl⟩, mFits, spelled⟩
  · rintro ⟨rfl, typed, mFits, spelled⟩
    obtain ⟨m, made⟩ := (tagged _).mp typed
    rw [made] at mFits spelled
    exact ⟨m, ⟨mFits, spelled⟩, by rw [← made]⟩

theorem readPayload_parses (fits : buffer.Addressable) (type : UInt8) (sender : NodeId) :
    Parses buffer.bytes (match type with
      | 0 => return ⟨sender, .clockNotification (← readClockNotification buffer)⟩
      | 1 => return ⟨sender, .chainRequest (← readChainRequest buffer)⟩
      | 2 => return ⟨sender, .chainResponse (← readChainResponse buffer)⟩
      | _ => throw (.exception "wire: unknown datagram type") : ReadM Datagram) fun datagram text =>
        datagram.sender = sender ∧ datagram.payload.type = type ∧ datagram.payload.Fits ∧
          ∃ words : List UInt64, words.map UInt64.toUInt32 = datagram.payload.narrow ∧
            text = datagram.payload.wideBody words := by
  split
  · refine tagged_parses sender (readClockNotification_parses fits) fun payload => ?_
    cases payload <;> simp [Payload.type]
  · refine tagged_parses sender (readChainRequest_parses fits) fun payload => ?_
    cases payload <;> simp [Payload.type]
  · refine tagged_parses sender (readChainResponse_parses fits) fun payload => ?_
    cases payload <;> simp [Payload.type]
  · refine parses_throw.congr fun datagram text => ⟨False.elim, ?_⟩
    rintro ⟨-, typed, -⟩
    rcases datagram with ⟨_, m | m | m⟩ <;> simp_all [Payload.type]

theorem readDatagram_parses (fits : buffer.Addressable) :
    Parses buffer.bytes (readDatagram buffer) fun datagram text => datagram.payload.Fits ∧
      ∃ words : List UInt64, words.map UInt64.toUInt32 = datagram.payload.narrow ∧
        text = encodeWide words datagram := by
  refine ((Reader.u8_parses fits).bind fun type => (Reader.nodeId_parses fits).bind fun sender =>
    readPayload_parses fits type sender).congr fun datagram text => ?_
  constructor
  · rintro ⟨type, _, _, rfl, ⟨sender, _, _, rfl, ⟨rfl, rfl, payloadFits, words, narrow, rfl⟩, rfl⟩,
      rfl⟩
    exact ⟨payloadFits, words, narrow, by simp only [encodeWide, writeHeader, List.append_assoc]⟩
  · rintro ⟨payloadFits, words, narrow, rfl⟩
    exact ⟨datagram.payload.type, _, _, rfl, ⟨datagram.sender, _, _, rfl,
      ⟨rfl, rfl, payloadFits, words, narrow, rfl⟩, rfl⟩, by simp only [encodeWide, writeHeader,
      List.append_assoc]⟩

end Payloads

theorem decode_ok_iff {buffer : Buffer} (fits : buffer.Addressable) {datagram : Datagram} :
    decode buffer = .ok datagram ↔ datagram.payload.Fits ∧ ∃ words : List UInt64,
      words.map UInt64.toUInt32 = datagram.payload.narrow ∧
      encodeWide words datagram <+: buffer.bytes := by
  have parses := readDatagram_parses fits 0 (Nat.zero_le _) datagram
  have returned : decode buffer = .ok datagram ↔
    ∃ stop, readDatagram buffer 0 = .ok datagram stop := by
    unfold decode
    cases readDatagram buffer 0 <;> simp
  rw [returned]
  simp only [parses, List.drop_zero]
  constructor
  · rintro ⟨_, _, ⟨payloadFits, words, narrow, rfl⟩, stands, -⟩
    exact ⟨payloadFits, words, narrow, stands⟩
  · rintro ⟨payloadFits, words, narrow, stands⟩
    exact ⟨_, _, ⟨payloadFits, words, narrow, rfl⟩, stands, rfl⟩

theorem zipWith_wideClockEvent (clockEvents : List ClockEvent) :
    List.zipWith Writer.wideClockEvent (clockEvents.map fun c => c.chain.toUInt64) clockEvents =
      clockEvents.map Writer.clockEvent := by
  induction clockEvents with
  | nil => rfl
  | cons c rest ih => rw [List.map_cons, List.zipWith_cons_cons, ih]; rfl

/-- What `encode` writes is the spelling with every 32-bit field extended by zeros. -/
theorem encodeWide_extended (datagram : Datagram) :
    encodeWide (datagram.payload.narrow.map UInt32.toUInt64) datagram = encode datagram := by
  rw [encodeWide, encode]
  congr 1
  rcases datagram with ⟨_, m | m | m⟩
  · simp only [Payload.narrow, Payload.wideBody, Payload.body, List.map_cons, List.map_nil,
      List.flatMap_singleton]
  · simp only [Payload.narrow, Payload.wideBody, Payload.body, List.map_cons, List.map_nil,
      List.flatMap_singleton]
  · have lower :
        ((Payload.chainResponse m).narrow.map UInt32.toUInt64).take m.chain.lowerBound.length =
        m.chain.lowerBound.map fun c => c.chain.toUInt64 := by
      simp [Payload.narrow, List.take_left', Function.comp_def]
    have upper :
        ((Payload.chainResponse m).narrow.map UInt32.toUInt64).drop m.chain.lowerBound.length =
        m.chain.upperBound.map fun c => c.chain.toUInt64 := by
      simp [Payload.narrow, List.drop_left', Function.comp_def]
    simp only [Payload.wideBody, Payload.body, Writer.wideClockEvents, lower, upper,
      zipWith_wideClockEvent, Writer.chain, List.flatMap_def, List.append_assoc]

theorem wide_clockEvents_length (clockEvents : List ClockEvent) {first second : List UInt64}
    (size : first.length = second.length) :
    (List.zipWith Writer.wideClockEvent first clockEvents).flatten.length =
      (List.zipWith Writer.wideClockEvent second clockEvents).flatten.length := by
  induction clockEvents generalizing first second with
  | nil => simp
  | cons c rest ih =>
      match first, second, size with
      | [], [], _ => rfl
      | _ :: first, _ :: second, size =>
          have tail := ih (Nat.succ.inj size)
          simp only [List.zipWith_cons_cons, List.flatten_cons, List.length_append, tail,
            Writer.wideClockEvent, Writer.u64, digits_length]

theorem u64_injective {first second : UInt64} (same : Writer.u64 first = Writer.u64 second) :
    first = second :=
  UInt64.toNat_inj.mp (digits_inj first.toNat_lt second.toNat_lt same)

theorem wide_clockEvents_injective {clockEvents : List ClockEvent} {first second : List UInt64}
    (one : first.length = clockEvents.length) (other : second.length = clockEvents.length)
    (same : (List.zipWith Writer.wideClockEvent first clockEvents).flatten =
      (List.zipWith Writer.wideClockEvent second clockEvents).flatten) : first = second := by
  induction clockEvents generalizing first second with
  | nil => rw [List.length_eq_zero_iff.mp one, List.length_eq_zero_iff.mp other]
  | cons c rest ih =>
      match first, second, one, other with
      | word :: first, word' :: second, one, other =>
          simp only [List.zipWith_cons_cons, List.flatten_cons, Writer.wideClockEvent,
            List.append_assoc, List.append_cancel_left_eq] at same
          obtain ⟨word, later⟩ := List.append_inj same (by simp [Writer.u64])
          simp only [List.append_cancel_left_eq] at later
          rw [u64_injective word, ih (Nat.succ.inj one) (Nat.succ.inj other) later]

theorem flatMap_u64_length (words : List UInt64) :
    (words.flatMap Writer.u64).length = 8 * words.length := by
  induction words with
  | nil => rfl
  | cons word rest ih =>
      rw [List.flatMap_cons, List.length_append, ih, Writer.u64, digits_length, List.length_cons]
      omega

theorem wideBody_length (payload : Payload) {first second : List UInt64}
    (size : first.length = second.length) :
    (payload.wideBody first).length = (payload.wideBody second).length := by
  cases payload with
  | clockNotification m =>
      simp only [Payload.wideBody, List.length_append, flatMap_u64_length, size]
  | chainRequest m => simp only [Payload.wideBody, List.length_append, flatMap_u64_length, size]
  | chainResponse m =>
      have lower := wide_clockEvents_length m.chain.lowerBound
        (show (first.take m.chain.lowerBound.length).length =
          (second.take m.chain.lowerBound.length).length by
          rw [List.length_take, List.length_take, size])
      have upper := wide_clockEvents_length m.chain.upperBound
        (show (first.drop m.chain.lowerBound.length).length =
          (second.drop m.chain.lowerBound.length).length by
          rw [List.length_drop, List.length_drop, size])
      simp only [Payload.wideBody, Writer.wideClockEvents, List.length_append, lower, upper]

theorem wideBody_injective {payload : Payload} {first second : List UInt64}
    (one : first.length = payload.narrow.length) (other : second.length = payload.narrow.length)
    (same : payload.wideBody first = payload.wideBody second) : first = second := by
  have single : ∀ {first second : List UInt64}, first.length = 1 → second.length = 1 →
      first.flatMap Writer.u64 = second.flatMap Writer.u64 → first = second := by
    intro first second one other same
    obtain ⟨word, rfl⟩ := List.length_eq_one_iff.mp one
    obtain ⟨word', rfl⟩ := List.length_eq_one_iff.mp other
    rw [List.flatMap_singleton, List.flatMap_singleton] at same
    rw [u64_injective same]
  cases payload with
  | clockNotification m =>
      simp only [Payload.wideBody, List.append_cancel_right_eq] at same
      exact single one other same
  | chainRequest m =>
      simp only [Payload.wideBody, List.append_cancel_right_eq, List.append_cancel_left_eq] at same
      exact single one other same
  | chainResponse m =>
      simp only [Payload.narrow, List.length_append, List.length_map] at one other
      simp only [Payload.wideBody, Writer.wideClockEvents, List.append_assoc,
        List.append_cancel_left_eq] at same
      obtain ⟨lower, later⟩ := List.append_inj same
        (wide_clockEvents_length _ (by rw [List.length_take, List.length_take, one, other]))
      simp only [List.append_cancel_left_eq, List.append_cancel_right_eq] at later
      have front := wide_clockEvents_injective (by rw [List.length_take, one]; omega)
        (by rw [List.length_take, other]; omega) lower
      have back := wide_clockEvents_injective (by rw [List.length_drop, one]; omega)
        (by rw [List.length_drop, other]; omega) later
      rw [← List.take_append_drop m.chain.lowerBound.length first, front, back,
        List.take_append_drop]

theorem toUInt64_toUInt32_iff {word : UInt64} : word.toUInt32.toUInt64 = word ↔
    word.toNat < 2 ^ 32 := by
  rw [← UInt64.toNat_inj, UInt32.toNat_toUInt64, UInt64.toNat_toUInt32]
  exact ⟨fun same => by omega, Nat.mod_eq_of_lt⟩

theorem words_extended_iff {words : List UInt64} {narrow : List UInt32}
    (narrowed : words.map UInt64.toUInt32 = narrow) :
    words = narrow.map UInt32.toUInt64 ↔ ∀ word ∈ words, word.toNat < 2 ^ 32 := by
  subst narrowed
  have self : words.map (UInt32.toUInt64 ∘ UInt64.toUInt32) = words.map id ↔
      ∀ word ∈ words, word.toUInt32.toUInt64 = word := List.map_inj_left
  rw [List.map_id] at self
  rw [List.map_map, eq_comm, self]
  exact forall₂_congr fun word _ => toUInt64_toUInt32_iff

theorem decode_of_encoded {datagram : Datagram} {wordBits : Nat}
    (payloadFits : datagram.payload.Fits)
    (fits : (⟨encode datagram, wordBits⟩ : Buffer).Addressable) :
    decode ⟨encode datagram, wordBits⟩ = .ok datagram := by
  refine (decode_ok_iff fits).mpr ⟨payloadFits, datagram.payload.narrow.map UInt32.toUInt64, ?_, ?_⟩
  · rw [List.map_map]
    exact (List.map_congr_left fun word _ => UInt32.toUInt32_toUInt64 word).trans (List.map_id _)
  · simp only [encodeWide_extended, List.prefix_rfl]

theorem senderOf_of_decode {bytes : Bytes} {wordBits : Nat} {datagram : Datagram}
    (fits : (⟨bytes, wordBits⟩ : Buffer).Addressable)
    (accepted : decode ⟨bytes, wordBits⟩ = .ok datagram) :
    senderOf bytes = some datagram.sender := by
  obtain ⟨-, words, -, rest, whole⟩ := (decode_ok_iff fits).mp accepted
  have header : (bytes.drop 1).take 16 = datagram.sender.bytes := by
    have spelled : bytes = datagram.payload.type ::
        (datagram.sender.bytes ++ (datagram.payload.wideBody words ++ rest)) := by
      rw [show bytes = encodeWide words datagram ++ rest from whole.symm]
      simp only [encodeWide, writeHeader, Writer.u8, Writer.nodeId, List.append_assoc,
        List.cons_append, List.nil_append]
    rw [spelled, List.drop_one, List.tail_cons, List.take_left' datagram.sender.size]
  unfold senderOf
  rw [dif_pos (by rw [header]; exact datagram.sender.size)]
  exact congrArg some (NodeId.ext_bytes header)

theorem decode_encode (wordBits : Nat) (bits : wordBits = 32 ∨ wordBits = 64) :
    (∀ datagram : Datagram, datagram.payload.Fits → (encode datagram).length < 2 ^ (wordBits - 1) →
      decode ⟨encode datagram, wordBits⟩ = .ok datagram) ∧
    ∀ (bytes : Bytes) (datagram : Datagram), bytes.length < 2 ^ (wordBits - 1) →
      decode ⟨bytes, wordBits⟩ = .ok datagram → senderOf bytes = some datagram.sender :=
  ⟨fun _ payloadFits short => decode_of_encoded payloadFits ⟨bits, short⟩,
    fun _ _ short accepted => senderOf_of_decode ⟨bits, short⟩ accepted⟩

def sampleClockEvent : ClockEvent where
  creator := NodeId.ofUInt64 1
  hash := [1, 2]
  chain := 3
  timestamp := -4
  salt := 5
  referencedEvents := [⟨NodeId.ofUInt64 2, [6]⟩]
  signature := [7]

def sampleResponse : Datagram where
  sender := NodeId.ofUInt64 2
  payload := .chainResponse
    { originator := NodeId.ofUInt64 1
      chain :=
        { event := { creator := NodeId.ofUInt64 2, hash := [8], data := [], salt := 9
                     referencedEvents := [], signature := [] }
          lowerBound := [sampleClockEvent]
          upperBound := [sampleClockEvent, sampleClockEvent] }
      path := [NodeId.ofUInt64 3] }

theorem sampleResponse_fits : sampleResponse.payload.Fits := by
  simp [sampleResponse, sampleClockEvent, Payload.Fits, ChainFits, EventFits, ClockEventsFit,
    ClockEventFits, RefsFit]

theorem decode_encode_sample :
    decode ⟨encode sampleResponse, 32⟩ = .ok sampleResponse ∧
      senderOf (encode sampleResponse) = some sampleResponse.sender := by
  have short : (encode sampleResponse).length < 2 ^ 31 := by decide +kernel
  have read := (decode_encode 32 (.inl rfl)).1 sampleResponse sampleResponse_fits short
  exact ⟨read, (decode_encode 32 (.inl rfl)).2 _ _ short read⟩

/-- `words` are the 64-bit words of an accepted datagram that are kept in 32 bits: re-encoding gives
the datagram back exactly when none of them loses a bit. -/
theorem reencode_prefix_iff {buffer : Buffer} (fits : buffer.Addressable) {datagram : Datagram}
    (accepted : decode buffer = .ok datagram) :
    ∃ words : List UInt64, encodeWide words datagram <+: buffer.bytes ∧
      words.map UInt64.toUInt32 = datagram.payload.narrow ∧
      (encode datagram <+: buffer.bytes ↔ ∀ word ∈ words, word.toNat < 2 ^ 32) ∧
      ((∀ word ∈ words, word.toNat < 2 ^ 32) →
        words = datagram.payload.narrow.map UInt32.toUInt64) := by
  obtain ⟨-, words, narrowed, stands⟩ := (decode_ok_iff fits).mp accepted
  have size : words.length = (datagram.payload.narrow.map UInt32.toUInt64).length := by
    rw [← narrowed]
    simp
  refine ⟨words, stands, narrowed, ?_, (words_extended_iff narrowed).mpr⟩
  rw [← words_extended_iff narrowed, ← encodeWide_extended]
  constructor
  · intro again
    have same : encodeWide words datagram = encodeWide
      (datagram.payload.narrow.map UInt32.toUInt64) datagram := by
      refine (List.prefix_of_prefix_length_le stands again ?_).eq_of_length ?_
      all_goals simp only [encodeWide, List.length_append, wideBody_length _ size, Nat.le_refl]
    exact wideBody_injective (by simpa using size) (by simp) (List.append_cancel_left same)
  · intro same
    rwa [← same]

theorem reencode_prefix_sample :
    ∃ words : List UInt64, encodeWide words sampleResponse <+: encode sampleResponse ∧
      words.map UInt64.toUInt32 = [3, 3, 3] ∧
      (encode sampleResponse <+: encode sampleResponse ↔ ∀ word ∈ words, word.toNat < 2 ^ 32) ∧
      ((∀ word ∈ words, word.toNat < 2 ^ 32) → words = [3, 3, 3]) :=
  have fits : (⟨encode sampleResponse, 64⟩ : Buffer).Addressable := ⟨.inr rfl, by decide +kernel⟩
  reencode_prefix_iff fits
  ((decode_ok_iff fits).mpr ⟨sampleResponse_fits, [3, 3, 3], rfl, by decide +kernel⟩)

def sampleRequest (hopLimit : UInt32) : Datagram where
  sender := NodeId.ofUInt64 2
  payload := .chainRequest
    { originator := NodeId.ofUInt64 1, event := ⟨NodeId.ofUInt64 3, [8]⟩, range := ⟨0, 0⟩, hopLimit
      path := [NodeId.ofUInt64 1] }

/-- A request sent with hop limit `2 ^ 32` is read as an unlimited one. -/
theorem wide_hopLimit_misread :
    decode ⟨encodeWide [4294967296] (sampleRequest 0), 64⟩ = .ok (sampleRequest 0) ∧
      ¬encode (sampleRequest 0) <+: encodeWide [4294967296] (sampleRequest 0) := by
  have fits : (⟨encodeWide [4294967296] (sampleRequest 0), 64⟩ : Buffer).Addressable :=
    ⟨.inr rfl, by decide +kernel⟩
  constructor
  · exact (decode_ok_iff fits).mpr ⟨by simp [sampleRequest, Payload.Fits], [4294967296], by decide,
      List.prefix_rfl⟩
  · decide +kernel

end Loti.Wire
