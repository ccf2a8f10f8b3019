import Loti.Node
import Loti.OfflineProof
import Loti.WireFormat

/-!
Where the decoder reads. On 64 bits it never leaves its buffer; on 32 bits the sum in
`need` can wrap, and it leaves the buffer exactly when some length prefix makes it wrap.
-/

namespace Loti.Wire

open Parsing StateExcept BigEndian

/-- `read` ends inside the buffer and no earlier than it began; what it throws is a rejection. -/
def InsideFrom {α : Type} (buffer : Buffer) (read : ReadM α) (pos : Nat) : Prop :=
  Ends read pos (fun _ stop => pos ≤ stop ∧ stop ≤ buffer.bytes.length)
    (fun fault stop => (∃ what, fault = .exception what) ∧ pos ≤ stop ∧ stop ≤ buffer.bytes.length)

def StaysInside {α : Type} (buffer : Buffer) (read : ReadM α) : Prop :=
  ∀ pos, pos ≤ buffer.bytes.length → InsideFrom buffer read pos

/-- No four bytes, taken as a length prefix, make the end of the blob wrap. -/
def Buffer.LengthsFit (buffer : Buffer) : Prop :=
  ∀ pos < buffer.bytes.length - 3,
    pos + 4 + value ((buffer.bytes.drop pos).take 4) < 2 ^ buffer.wordBits

instance (buffer : Buffer) : Decidable buffer.LengthsFit :=
  inferInstanceAs (Decidable (∀ pos < _, _))

inductive Operation
  | u8 | u64 | nodeId | blob | refs | event | clockEvent | chain | timeRange | nodeIds

def Operation.run (buffer : Buffer) : Operation → ReadM Unit
  | .u8 => discard (Reader.u8 buffer)
  | .u64 => discard (Reader.u64 buffer)
  | .nodeId => discard (Reader.nodeId buffer)
  | .blob => discard (Reader.blob buffer)
  | .refs => discard (Reader.refs buffer)
  | .event => discard (Reader.event buffer)
  | .clockEvent => discard (Reader.clockEvent buffer)
  | .chain => discard (Reader.chain buffer)
  | .timeRange => discard (Reader.timeRange buffer)
  | .nodeIds => discard (Reader.nodeIds buffer)

/-- The counts that operations hand to `need` at `pos`: a fixed width, or the length prefix just
read. -/
def Asked (buffer : Buffer) (pos count : Nat) : Prop :=
  count ∈ [1, 4, 8, 16] ∨
    (4 ≤ pos ∧ pos ≤ buffer.bytes.length ∧ count = value ((buffer.bytes.drop (pos - 4)).take 4))

/-- What holds of the primitive reads and passes on along a sequence of reads. -/
structure ReaderRule (buffer : Buffer) (holds : {α : Type} → ReadM α → Prop) : Prop where
  pure : ∀ {α : Type} (value : α), holds (pure value)
  reject : ∀ {α : Type} (what : String), holds (throw (.exception what) : ReadM α)
  bind : ∀ {α β : Type} {read : ReadM α} {next : α → ReadM β},
    holds read → (∀ value, holds (next value)) → holds (read >>= next)
  ensureCount : ∀ count least, holds (Reader.ensureCount buffer count least)
  u8 : holds (Reader.u8 buffer)
  u32 : holds (Reader.u32 buffer)
  u64 : holds (Reader.u64 buffer)
  nodeId : holds (Reader.nodeId buffer)
  blob : holds (Reader.blob buffer)

namespace ReaderRule

variable {buffer : Buffer} {holds : {α : Type} → ReadM α → Prop} (rule : ReaderRule buffer holds)

include rule

theorem times {α : Type} {read : ReadM α} (body : holds read) (count : Nat) :
    holds (Reader.times read count) := by
  induction count with
  | zero => exact rule.pure []
  | succ count ih => exact rule.bind body fun _ => rule.bind ih fun _ => rule.pure _

theorem guard (condition : Prop) [Decidable condition] (what : String) :
    holds (when condition (throw (.exception what)) : ReadM PUnit) := by
  unfold when
  split
  · exact rule.reject _
  · exact rule.pure _

theorem refs : holds (Reader.refs buffer) := by
  refine rule.bind rule.u32 fun _ => rule.bind (rule.ensureCount _ _) fun _ => rule.times ?_ _
  exact rule.bind rule.nodeId fun _ => rule.bind rule.blob fun _ => rule.pure _

theorem event : holds (Reader.event buffer) :=
  rule.bind rule.nodeId fun _ => rule.bind rule.blob fun _ => rule.bind rule.blob fun _ =>
    rule.bind rule.u64 fun _ => rule.bind rule.refs fun _ => rule.bind rule.blob fun _ =>
      rule.pure _

theorem clockEvent : holds (Reader.clockEvent buffer) :=
  rule.bind rule.nodeId fun _ => rule.bind rule.blob fun _ => rule.bind rule.u64 fun _ =>
    rule.bind rule.u64 fun _ => rule.bind rule.u64 fun _ => rule.bind rule.refs fun _ =>
      rule.bind rule.blob fun _ => rule.pure _

theorem chain : holds (Reader.chain buffer) := by
  refine rule.bind rule.event fun _ => rule.bind rule.u32 fun _ =>
    rule.bind (rule.ensureCount _ _) fun _ => ?_
  refine rule.bind (rule.times rule.clockEvent _) fun _ => rule.bind rule.u32 fun _ => ?_
  exact rule.bind (rule.ensureCount _ _) fun _ => rule.bind (rule.times rule.clockEvent _) fun _ =>
    rule.pure _

theorem timeRange : holds (Reader.timeRange buffer) :=
  rule.bind rule.u64 fun _ => rule.bind rule.u64 fun _ => rule.pure _

theorem nodeIds : holds (Reader.nodeIds buffer) :=
  rule.bind rule.u32 fun _ => rule.bind (rule.ensureCount _ _) fun _ => rule.times rule.nodeId _

theorem readDatagram : holds (readDatagram buffer) := by
  refine rule.bind rule.u8 fun type => rule.bind rule.nodeId fun sender => ?_
  split
  · refine rule.bind ?_ fun _ => rule.pure _
    exact rule.bind rule.u64 fun _ => rule.bind rule.blob fun _ => rule.bind rule.blob fun _ =>
      rule.pure _
  · refine rule.bind ?_ fun _ => rule.pure _
    refine rule.bind rule.nodeId fun _ => rule.bind rule.nodeId fun _ =>
      rule.bind rule.blob fun _ => ?_
    refine rule.bind rule.timeRange fun _ => rule.bind rule.u64 fun _ => ?_
    exact rule.bind rule.nodeIds fun _ => rule.pure _
  · refine rule.bind ?_ fun _ => rule.pure _
    exact rule.bind rule.nodeId fun _ => rule.bind rule.chain fun _ =>
      rule.bind rule.nodeIds fun _ => rule.pure _
  · exact rule.reject _

theorem readProof : holds (OfflineProof.readProof buffer) := by
  refine rule.bind rule.u64 fun _ => rule.bind (rule.guard _ _) fun _ =>
    rule.bind rule.u64 fun _ => ?_
  refine rule.bind (rule.guard _ _) fun _ => rule.bind rule.u8 fun kind =>
    rule.bind rule.nodeId fun _ => ?_
  refine rule.bind rule.blob fun _ => rule.bind rule.chain fun _ => ?_
  split
  · exact rule.bind rule.chain fun _ => rule.bind rule.u8 fun _ => rule.pure _
  · exact rule.pure _

theorem readCounted {α : Type} {read : ReadM α} (body : holds read) :
    holds (readCounted buffer read) :=
  rule.bind rule.u64 fun _ => rule.times body _

theorem readSnapshot : holds (readSnapshot buffer) := by
  have events := rule.readCounted rule.event
  refine rule.bind rule.u64 fun _ => rule.bind (rule.guard _ _) fun _ => rule.bind events fun _ =>
    rule.bind (rule.readCounted ?_) fun _ => rule.bind events fun _ =>
      rule.bind (rule.readCounted ?_) fun _ =>
      rule.bind (rule.readCounted ?_) fun _ => rule.pure _
  · exact rule.bind rule.clockEvent fun _ => rule.bind rule.refs fun _ => rule.pure _
  · exact rule.bind rule.nodeId fun _ => rule.bind (rule.readCounted rule.blob) fun _ => rule.pure _
  · exact rule.bind rule.nodeId fun _ => rule.bind rule.nodeId fun _ => rule.pure _

end ReaderRule

section Rules

variable {α β : Type} {buffer : Buffer} {pos : Nat}

theorem stays_pure (value : α) : StaysInside buffer (pure value : ReadM α) :=
  fun pos within => ⟨Nat.le_refl pos, within⟩

theorem stays_reject (what : String) : StaysInside buffer (throw (.exception what) : ReadM α) :=
  fun pos within => ⟨⟨what, rfl⟩, Nat.le_refl pos, within⟩

theorem InsideFrom.bind {read : ReadM α} {next : α → ReadM β} (first : InsideFrom buffer read pos)
    (rest : ∀ value stop, read pos = .ok value stop → stop ≤ buffer.bytes.length →
      InsideFrom buffer (next value) stop) : InsideFrom buffer (read >>= next) pos := by
  unfold InsideFrom Ends at first
  unfold InsideFrom
  rw [ends_bind]
  unfold Ends
  cases ran : read pos with
  | ok value stop =>
      rw [ran] at first
      refine (rest value stop ran first.2).mono (fun _ _ ended => ?_) (fun _ _ ended => ?_)
      · exact ⟨first.1.trans ended.1, ended.2⟩
      · exact ⟨ended.1, first.1.trans ended.2.1, ended.2.2⟩
  | error fault stop =>
      rw [ran] at first
      exact first

theorem StaysInside.bind {read : ReadM α} {next : α → ReadM β} (first : StaysInside buffer read)
    (rest : ∀ value, StaysInside buffer (next value)) : StaysInside buffer (read >>= next) :=
  fun pos within => (first pos within).bind fun value stop _ inside => rest value stop inside

theorem StaysInside.discard {read : ReadM α} (stays : StaysInside buffer read) :
    StaysInside buffer (discard read) := by
  intro pos within
  unfold InsideFrom
  rw [ends_discard]
  exact stays pos within

end Rules

namespace Reader

variable {buffer : Buffer}

theorem need_stays (count : Nat) : StaysInside buffer (need buffer count) := by
  intro pos within
  simp only [InsideFrom, need, ends_bind, ends_get]
  split
  · exact ⟨⟨_, rfl⟩, Nat.le_refl pos, within⟩
  · exact ⟨Nat.le_refl pos, within⟩

theorem ensureCount_stays (count : UInt32) (least : Nat) :
    StaysInside buffer (ensureCount buffer count least) := by
  intro pos within
  simp only [InsideFrom, ensureCount, ends_bind, ends_get]
  split
  · exact ⟨⟨_, rfl⟩, Nat.le_refl pos, within⟩
  · exact ⟨Nat.le_refl pos, within⟩

theorem fixed_stays {α : Type} {count : Nat} {read : ReadM α} {spells : α → Bytes → Prop}
    (fits : buffer.Addressable) (small : count ≤ 16)
    (parses : Parses buffer.bytes (need buffer count >>= fun _ => read) spells)
    (reads : ∀ text : Bytes, text.length = count → ∃ value, spells value text) :
    StaysInside buffer (need buffer count >>= fun _ => read) := by
  intro pos within
  refine (need_stays count pos within).bind fun _ stop passed inside => ?_
  obtain ⟨rfl, enough⟩ := (need_guards fits small pos within stop).mp passed
  have size : ((buffer.bytes.drop stop).take count).length = count := by
    rw [List.length_take, List.length_drop]
    omega
  obtain ⟨value, spelled⟩ := reads _ size
  have whole := (parses stop within value (stop + count)).mpr
    ⟨_, spelled, List.take_prefix _ _, by rw [size]⟩
  obtain ⟨_, _, again, returned⟩ := bind_ok_iff.mp whole
  obtain ⟨rfl, -⟩ := (need_guards fits small stop within _).mp again
  unfold InsideFrom Ends
  rw [returned]
  exact ⟨by omega, by omega⟩

theorem u8_stays (fits : buffer.Addressable) : StaysInside buffer (u8 buffer) := by
  refine fixed_stays fits (by decide) (u8_parses fits) fun text size => ?_
  obtain ⟨byte, rfl⟩ := List.length_eq_one_iff.mp size
  exact ⟨byte, rfl⟩

theorem u32_surjective {text : Bytes} (size : text.length = 4) :
    ∃ value, text = Writer.u32 value := by
  have bound := value_lt text
  rw [size] at bound
  refine ⟨UInt32.ofNat (value text), ?_⟩
  rw [Writer.u32, UInt32.toNat_ofNat_of_lt' bound, digits_value size]

section

variable (fits : buffer.Addressable)

include fits

theorem u32_stays : StaysInside buffer (u32 buffer) :=
  fixed_stays fits (by decide) (u32_parses fits) fun _ size => u32_surjective size

theorem u64_stays : StaysInside buffer (u64 buffer) := by
  refine fixed_stays fits (by decide) (u64_parses fits) fun text size => ?_
  have bound := value_lt text
  rw [size] at bound
  refine ⟨UInt64.ofNat (value text), ?_⟩
  rw [Writer.u64, UInt64.toNat_ofNat_of_lt' bound, digits_value size]

theorem nodeId_stays : StaysInside buffer (nodeId buffer) :=
  fixed_stays fits (by decide) (nodeId_parses fits) fun text size => ⟨⟨text, size⟩, rfl⟩

theorem slice_inside {pos : Nat} (within : pos ≤ buffer.bytes.length)
    {count : UInt32} (straight : pos + count.toNat < 2 ^ buffer.wordBits) :
    InsideFrom buffer (slice buffer count) pos := by
  have range := slice_range_iff fits within count
  refine (need_stays count.toNat pos within).bind fun _ stop passed inside => ?_
  obtain ⟨rfl, enough⟩ := need_ok_iff.mp passed
  rw [Nat.mod_eq_of_lt straight] at enough
  have ends := range.mpr enough
  simp only [InsideFrom, ends_bind, ends_get, if_pos ends]
  exact ends

theorem slice_wraps {pos : Nat} (within : pos ≤ buffer.bytes.length)
    {count : UInt32} (wraps : 2 ^ buffer.wordBits ≤ pos + count.toNat) :
    slice buffer count pos = .error .undefinedBehavior pos := by
  have half := fits.half
  have word := fits.word
  have bound := count.toNat_lt
  have wrapped :
    (pos + count.toNat) % 2 ^ buffer.wordBits = pos + count.toNat - 2 ^ buffer.wordBits := by
    rw [Nat.mod_eq_sub_mod (by omega), Nat.mod_eq_of_lt (by omega)]
  have passed : need buffer count.toNat pos = .ok () pos := need_ok_iff.mpr ⟨rfl, by omega⟩
  have reversed := (slice_range_iff fits within count).not.mpr (by omega)
  simp only [slice, bind, EStateM.bind, passed, get_run, if_neg reversed]
  rfl

end

theorem u32_eq_value {pos : Nat} {count : UInt32}
    (stands : Writer.u32 count <+: buffer.bytes.drop pos) :
    value ((buffer.bytes.drop pos).take 4) = count.toNat := by
  have taken := List.prefix_iff_eq_take.mp stands
  rw [Writer.u32, digits_length] at taken
  rw [← taken, value_digits]
  exact Nat.mod_eq_of_lt count.toNat_lt

theorem blob_stays (fits : buffer.Addressable) (lengths : buffer.LengthsFit) :
    StaysInside buffer (blob buffer) := by
  intro pos within
  rw [blob_eq]
  refine (u32_stays fits pos within).bind fun count stop read inside => ?_
  obtain ⟨_, rfl, stands, rfl⟩ := (u32_parses fits pos within count stop).mp read
  rw [Writer.u32, digits_length] at inside ⊢
  refine slice_inside fits inside ?_
  rw [← u32_eq_value stands]
  exact lengths pos (by omega)

theorem lengthFits_of_blob (fits : buffer.Addressable) {pos : Nat}
    (room : pos < buffer.bytes.length - 3) (inside : InsideFrom buffer (blob buffer) pos) :
    pos + 4 + value ((buffer.bytes.drop pos).take 4) < 2 ^ buffer.wordBits := by
  have size : ((buffer.bytes.drop pos).take 4).length = 4 := by
    rw [List.length_take, List.length_drop]
    omega
  obtain ⟨count, spelled⟩ := u32_surjective size
  have stands : Writer.u32 count <+: buffer.bytes.drop pos := spelled ▸ List.take_prefix _ _
  have read := (u32_parses fits pos (by omega) count (pos + 4)).mpr
    ⟨_, rfl, stands, by rw [Writer.u32, digits_length]⟩
  rw [u32_eq_value stands]
  by_contra wraps
  have sliced := slice_wraps fits (show pos + 4 ≤ buffer.bytes.length by omega)
    (Nat.le_of_not_lt wraps)
  have ran : blob buffer pos = .error .undefinedBehavior (pos + 4) := by
    rw [blob_eq]
    simp only [bind, EStateM.bind, read, sliced]
  unfold InsideFrom Ends at inside
  rw [ran] at inside
  obtain ⟨⟨_, rejected⟩, -⟩ := inside
  cases rejected

end Reader

section Decoders

variable {buffer : Buffer}

section

variable (fits : buffer.Addressable)

include fits

theorem stays_rule (lengths : buffer.LengthsFit) :
    ReaderRule buffer (StaysInside buffer) where
  pure := stays_pure
  reject := stays_reject
  bind := StaysInside.bind
  ensureCount := Reader.ensureCount_stays
  u8 := Reader.u8_stays fits
  u32 := Reader.u32_stays fits
  u64 := Reader.u64_stays fits
  nodeId := Reader.nodeId_stays fits
  blob := Reader.blob_stays fits lengths

theorem Operation.run_stays (lengths : buffer.LengthsFit) (operation : Operation) :
    StaysInside buffer (operation.run buffer) := by
  have rule := stays_rule fits lengths
  cases operation with
  | u8 => exact rule.u8.discard
  | u64 => exact rule.u64.discard
  | nodeId => exact rule.nodeId.discard
  | blob => exact rule.blob.discard
  | refs => exact rule.refs.discard
  | event => exact rule.event.discard
  | clockEvent => exact rule.clockEvent.discard
  | chain => exact rule.chain.discard
  | timeRange => exact rule.timeRange.discard
  | nodeIds => exact rule.nodeIds.discard

theorem operations_stay (lengths : buffer.LengthsFit) (operations : List Operation) :
    StaysInside buffer (operations.forM (Operation.run buffer)) := by
  induction operations with
  | nil => exact stays_pure _
  | cons operation rest ih => exact (operation.run_stays fits lengths).bind fun _ => ih

theorem u8s_reach {pos count : Nat} (within : pos + count ≤ buffer.bytes.length) :
    (List.replicate count Operation.u8).forM (Operation.run buffer) pos = .ok () (pos + count) := by
  induction count generalizing pos with
  | zero => rfl
  | succ count ih =>
      have stands : [buffer.bytes[pos]] <+: buffer.bytes.drop pos :=
        ⟨buffer.bytes.drop (pos + 1), (List.drop_eq_getElem_cons (by omega)).symm⟩
      have read := (Reader.u8_parses fits pos (by omega) buffer.bytes[pos] (pos + 1)).mpr
        ⟨_, rfl, stands, rfl⟩
      rw [List.replicate_succ, List.forM_eq_forM, List.forM_cons]
      refine bind_ok_iff.mpr ⟨(), pos + 1, ?_, ?_⟩
      · simp only [Operation.run, discard, Functor.discard, Functor.mapConst, EStateM.map,
          Function.comp, Function.const, read]
      · rw [← Nat.add_assoc, Nat.add_right_comm]
        exact ih (by omega)

theorem lengthsFit_of_64 (bits : buffer.wordBits = 64) : buffer.LengthsFit := by
  intro pos room
  have short := fits.2
  have bound := value_lt ((buffer.bytes.drop pos).take 4)
  rw [List.length_take, List.length_drop, Nat.min_eq_left (by omega)] at bound
  rw [bits] at short ⊢
  omega

theorem need_within (lengths : buffer.LengthsFit) {pos count : Nat}
    (asked : Asked buffer pos count) (within : pos ≤ buffer.bytes.length)
    (passed : Reader.need buffer count pos = .ok () pos) : count ≤ buffer.bytes.length - pos := by
  rcases asked with fixed | ⟨four, -, rfl⟩
  · have small : count ≤ 16 := by
      simp only [List.mem_cons, List.not_mem_nil, or_false] at fixed
      omega
    exact ((Reader.need_guards fits small pos within pos).mp passed).2
  · have straight := lengths (pos - 4) (by omega)
    rw [Nat.sub_add_cancel four] at straight
    have enough := (Reader.need_ok_iff.mp passed).2
    rw [Nat.mod_eq_of_lt straight] at enough
    omega

end

end Decoders

/-- The decoder stays inside its buffer, whatever is read, on 64 bits always and on 32 bits exactly
when no four bytes of the buffer, read as a length, make `pos_ + n` wrap. -/
theorem reader_inside_iff (buffer : Buffer) (fits : buffer.Addressable) :
    ((∀ (before : List Operation) (pos : Nat), before.forM (Operation.run buffer) 0 = .ok () pos →
        (∀ operation : Operation, InsideFrom buffer (operation.run buffer) pos) ∧
        ∀ count, Asked buffer pos count → Reader.need buffer count pos = .ok () pos →
          count ≤ buffer.bytes.length - pos) ∧
      InsideFrom buffer (readDatagram buffer) 0 ∧
        InsideFrom buffer (OfflineProof.readProof buffer) 0 ∧
      InsideFrom buffer (readSnapshot buffer) 0) ↔
    (buffer.wordBits = 32 → buffer.LengthsFit) := by
  constructor
  · rintro ⟨sequences, -⟩ -
    intro pos room
    have reached := u8s_reach fits (show 0 + pos ≤ buffer.bytes.length by omega)
    rw [Nat.zero_add] at reached
    have blob := (sequences _ pos reached).1 .blob
    unfold InsideFrom Operation.run at blob
    rw [ends_discard] at blob
    exact Reader.lengthFits_of_blob fits room blob
  · intro narrow
    have lengths : buffer.LengthsFit := by
      rcases fits.1 with bits | bits
      · exact narrow bits
      · exact lengthsFit_of_64 fits bits
    have rule := stays_rule fits lengths
    refine ⟨fun before pos reached => ?_, rule.readDatagram 0 (Nat.zero_le _),
      rule.readProof 0 (Nat.zero_le _), rule.readSnapshot 0 (Nat.zero_le _)⟩
    have within : pos ≤ buffer.bytes.length :=
      ((operations_stay fits lengths before 0 (Nat.zero_le _)).of_ok reached).2
    exact ⟨fun operation => operation.run_stays fits lengths pos within,
      fun count asked passed => need_within fits lengths asked within passed⟩

def blobDatagram : Buffer := ⟨encode ⟨.ofUInt64 2, .clockNotification ⟨0, [7], []⟩⟩, 32⟩

theorem reader_inside_sample :
    decode blobDatagram = .ok ⟨.ofUInt64 2, .clockNotification ⟨0, [7], []⟩⟩ ∧
    InsideFrom blobDatagram (readDatagram blobDatagram) 0 :=
  ⟨by decide +kernel,
    ((reader_inside_iff blobDatagram (by decide)).mpr fun _ => by decide +kernel).2.1⟩

/-- A clock notification whose first hash claims `2 ^ 32 - 26` bytes, on the 32-bit build: `need`
wraps to 3 and the pair from 29 to 3 is built. -/
theorem length_wraps_on_32 :
    (⟨List.replicate 25 0 ++ [255, 255, 255, 230], 32⟩ : Buffer).Addressable ∧
      raised (readDatagram ⟨List.replicate 25 0 ++ [255, 255, 255, 230], 32⟩) 0 =
      some .undefinedBehavior := by
  decide +kernel

end Loti.Wire
