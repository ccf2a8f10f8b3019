import Loti.Commands
import Loti.KeyStore
import Loti.WireFormat

/-!
A proof on its way from the daemon to a verifier: the bytes of `src/core/proof/proof.cpp` are hex
encoded into a reply field, read back by `do_prove` of `src/app/loti/loti.cpp` and verified with
another key store.
-/

namespace Loti

open StateExcept Parsing Wire OfflineProof

namespace OfflineProof

/-! The byte form -/

/-- Every blob and every list that is written has fewer than `2 ^ 32` elements. -/
structure Fits (p : Proof) : Prop where
  pubkey : p.reference.pubkey.length < 2 ^ 32
  chain : ChainFits p.chain
  chain2 : p.kind = .order → ChainFits p.chain2

/-- A proof as the byte form can hold it: what is not written has its initial value. -/
structure Canonical (p : Proof) : Prop where
  kind : Kind.ofByte p.kind.byte = p.kind
  order : orderOfByte (orderByte p.order) = p.order
  unused : p.kind ≠ .order → p.chain2 = default ∧ p.order = .undetermined

section Reading

variable {buffer : Buffer}

theorem expected_parses {α β : Type} [DecidableEq β] {read : ReadM α} {spells : α → Bytes → Prop}
    (found wanted : β) (message : String) (parses : Parses buffer.bytes read spells) :
    Parses buffer.bytes (when (found ≠ wanted) (throw (.exception message)) >>= fun _ =>
      read) fun value text =>
      found = wanted ∧ spells value text := by
  unfold when
  by_cases same : found = wanted
  · rw [if_neg (not_not_intro same)]
    exact parses.congr fun value text => (and_iff_right same).symm
  · rw [if_pos same]
    exact parses_throw.congr fun value text => ⟨False.elim, fun spelled => absurd spelled.1 same⟩

def SpellsChain (ch : EventChain) (text : Bytes) : Prop := ∃ lower upper : List UInt64,
  lower.map UInt64.toUInt32 = ch.lowerBound.map ClockEvent.chain ∧
  upper.map UInt64.toUInt32 = ch.upperBound.map ClockEvent.chain ∧ ChainFits ch ∧
  text = Writer.event ch.event ++ Writer.wideClockEvents lower ch.lowerBound ++
    Writer.wideClockEvents upper ch.upperBound

theorem spellsChain_writer {ch : EventChain} (fits : ChainFits ch) :
    SpellsChain ch (Writer.chain ch) := by
  have narrowed : ∀ clockEvents : List ClockEvent,
      (clockEvents.map fun c => c.chain.toUInt64).map UInt64.toUInt32 =
      clockEvents.map ClockEvent.chain := by
    intro clockEvents
    rw [List.map_map]
    exact List.map_congr_left fun c _ => UInt32.toUInt32_toUInt64 c.chain
  refine ⟨_, _, narrowed ch.lowerBound, narrowed ch.upperBound, fits, ?_⟩
  simp only [Writer.chain, Writer.wideClockEvents, zipWith_wideClockEvent, List.flatMap_def,
    List.append_assoc]

def SpellsRest (p : Proof) (text : Bytes) : Prop :=
  if p.kind = .order then ∃ chain2 byte, SpellsChain p.chain2 chain2 ∧ p.order = orderOfByte byte ∧
    text = chain2 ++ Writer.u8 byte
  else p.chain2 = default ∧ p.order = .undetermined ∧ text = []

def Spells (p : Proof) (text : Bytes) : Prop :=
  ∃ tag chain rest, p.kind = Kind.ofByte tag ∧
    p.reference.pubkey.length < 2 ^ 32 ∧
  SpellsChain p.chain chain ∧ SpellsRest p rest ∧
  text = Writer.u64 kMagic ++
    (Writer.u64 kVersion ++ (Writer.u8 tag ++ (Writer.nodeId p.reference.node ++
    (Writer.blob p.reference.pubkey ++ (chain ++ rest)))))

theorem readRest_parses (fits : buffer.Addressable) (kind : Kind) (node : NodeId) (pubkey : Bytes)
    (chain : EventChain) : Parses buffer.bytes (if kind = .order then do
        let chain2 ← Reader.chain buffer
        let order ← Reader.u8 buffer
        return { kind, reference := ⟨node, pubkey⟩, chain, chain2, order := orderOfByte order }
      else return { kind, reference := ⟨node, pubkey⟩, chain, chain2 := default, order :=
        .undetermined } : ReadM Proof)
      fun p text => p.kind = kind ∧ p.reference = ⟨node, pubkey⟩ ∧ p.chain = chain ∧
        SpellsRest p text := by
  by_cases order : kind = .order
  · simp only [if_pos order]
    refine ((Reader.chain_parses fits).bind fun chain2 => (Reader.u8_parses fits).map).congr
      fun p text => ?_
    constructor
    · rintro ⟨chain2, _, _, spelled, ⟨byte, rfl, rfl⟩, rfl⟩
      exact ⟨rfl, rfl, rfl, by rw [SpellsRest, if_pos order]; exact ⟨_, byte, spelled, rfl, rfl⟩⟩
    · rintro ⟨rfl, same, rfl, rest⟩
      rw [SpellsRest, if_pos order] at rest
      obtain ⟨chain2, byte, spelled, ordered, rfl⟩ := rest
      exact ⟨p.chain2, _, _, spelled, ⟨byte, rfl, by rw [← ordered, ← same]⟩, rfl⟩
  · simp only [if_neg order]
    refine parses_pure.congr fun p text => ?_
    constructor
    · rintro ⟨rfl, rfl⟩
      exact ⟨rfl, rfl, rfl, by rw [SpellsRest, if_neg order]; exact ⟨rfl, rfl, rfl⟩⟩
    · rintro ⟨rfl, same, rfl, rest⟩
      rw [SpellsRest, if_neg order] at rest
      obtain ⟨unused, undetermined, rfl⟩ := rest
      exact ⟨by rw [← same, ← unused, ← undetermined], rfl⟩

theorem readProof_parses (fits : buffer.Addressable) :
    Parses buffer.bytes (readProof buffer) Spells := by
  refine ((Reader.u64_parses fits).bind fun magic => expected_parses magic kMagic _
    ((Reader.u64_parses fits).bind fun version => expected_parses version kVersion _
      ((Reader.u8_parses fits).bind fun tag => (Reader.nodeId_parses fits).bind fun node =>
        (Reader.blob_parses fits).bind fun pubkey => (Reader.chain_parses fits).bind fun chain =>
          readRest_parses fits (Kind.ofByte tag) node pubkey chain))).congr fun p text => ?_
  constructor
  · rintro ⟨_, _, _, rfl,
      ⟨rfl, _, _, _, rfl, ⟨rfl, tag, _, _, rfl, ⟨node, _, _, rfl, ⟨pubkey, _, _, ⟨short, rfl⟩,
      ⟨chain, _, _, spelled, ⟨kind, reference, rfl, rest⟩, rfl⟩, rfl⟩, rfl⟩, rfl⟩, rfl⟩, rfl⟩
    refine ⟨tag, _, _, kind, ?_, spelled, rest, ?_⟩ <;> rw [reference]
    exact short
  · rintro ⟨tag, _, _, kind, short, spelled, rest, rfl⟩
    exact ⟨_, _, _, rfl,
      ⟨rfl, _, _, _, rfl,
        ⟨rfl, tag, _, _, rfl, ⟨p.reference.node, _, _, rfl, ⟨p.reference.pubkey, _, _,
      ⟨short, rfl⟩, ⟨p.chain, _, _, spelled, ⟨kind, rfl, rfl, rest⟩, rfl⟩, rfl⟩, rfl⟩, rfl⟩, rfl⟩,
        rfl⟩

theorem spells_serialize {p : Proof} (canonical : Canonical p) (fits : Fits p) :
    Spells p (serialize p) := by
  have rest : SpellsRest p (if p.kind = .order then
      Writer.chain p.chain2 ++ Writer.u8 (orderByte p.order) else []) := by
    unfold SpellsRest
    split
    · rename_i order
      exact ⟨_, _, spellsChain_writer (fits.chain2 order), canonical.order.symm, rfl⟩
    · rename_i other
      exact ⟨(canonical.unused other).1, (canonical.unused other).2, rfl⟩
  refine ⟨p.kind.byte, _, _, canonical.kind.symm, fits.pubkey,
    spellsChain_writer fits.chain, rest, ?_⟩
  simp only [serialize, List.append_assoc]

theorem deserialize_serialize {p : Proof} {wordBits : Nat} (canonical : Canonical p) (fits : Fits p)
    (room : (⟨serialize p, wordBits⟩ : Buffer).Addressable) :
    deserialize ⟨serialize p, wordBits⟩ = .ok p := by
  have read := (readProof_parses room 0 (Nat.zero_le _) p _).mpr
    ⟨serialize p, spells_serialize canonical fits, List.prefix_rfl, rfl⟩
  rw [deserialize, read]

end Reading

/-! Verification -/

/-- A proof whose chains the node's own validator accepts, and which records what they imply. -/
structure Backed (hasher : Hasher) (signer : Signer) (p : Proof) : Prop where
  chain : (verifyChain hasher p.chain p.reference.node signer).ok = true
  chain2 : p.kind = .order → (verifyChain hasher p.chain2 p.reference.node signer).ok = true ∧
  compare p.chain p.chain2 = some p.order
  unused : p.kind ≠ .order → p.chain2 = default ∧ p.order = .undetermined
  known : p.kind = .bounds ∨ p.kind = .chain ∨ p.kind = .order

section Verifying

variable {hasher : Hasher} {signer other : Signer} {p : Proof}

theorem compare_known {a b : EventChain} {order : Order} (compared : compare a b = some order) :
    orderOfByte (orderByte order) = order := by
  simp only [compare, Option.bind_eq_bind, Option.bind_eq_some_iff] at compared
  obtain ⟨aLower, -, aUpper, -, bLower, -, bUpper, -, chosen⟩ := compared
  split at chosen
  · cases chosen
    rfl
  · split at chosen <;> (obtain rfl := Option.some.inj chosen; rfl)

theorem Backed.canonical (backed : Backed hasher signer p) : Canonical p where
  kind := by rcases backed.known with kind | kind | kind <;> rw [kind] <;> rfl
  order := by
    by_cases order : p.kind = .order
    · exact compare_known (backed.chain2 order).2
    · rw [(backed.unused order).2]
      rfl
  unused := backed.unused

theorem Backed.bounds (backed : Backed hasher signer p) :
    ∃ front back, p.chain.lowerBound.head? = some front ∧ p.chain.upperBound.getLast? = some back ∧
      verifyChain hasher p.chain p.reference.node signer =
      { ok := true, lower := front.timestamp, upper := back.timestamp } := by
  obtain ⟨front, back, sound⟩ := verifyChain_sound _ _ _ _ backed.chain
  exact ⟨front, back, sound.front_found, sound.back_found, sound.accepted⟩

theorem Backed.verified (backed : Backed hasher signer p) (alike : signer.verify = other.verify)
    (identity : p.reference.pubkey = [] ∨
      fingerprint hasher p.reference.pubkey = p.reference.node) :
    ∃ front back, p.chain.lowerBound.head? = some front ∧ p.chain.upperBound.getLast? = some back ∧
      verify hasher p other =
      { valid := true, lower := front.timestamp, upper := back.timestamp, order := p.order } := by
  obtain ⟨front, back, frontFound, backFound, accepted⟩ := backed.bounds
  refine ⟨front, back, frontFound, backFound, ?_⟩
  have keyed :
    ¬(p.reference.pubkey ≠ [] ∧ fingerprint hasher p.reference.pubkey ≠ p.reference.node) := by
    rintro ⟨some, differs⟩
    exact identity.elim some differs
  rw [verifyChain_signer alike] at accepted
  rw [verify, if_neg keyed]
  simp only [accepted, Bool.not_true, Bool.false_eq_true, if_false]
  by_cases order : p.kind = .order
  · obtain ⟨second, compared⟩ := backed.chain2 order
    rw [verifyChain_signer alike] at second
    simp only [if_pos order, second, Bool.not_true, Bool.false_eq_true, if_false, compared, ne_eq,
      not_true_eq_false]
  · rw [if_neg order, (backed.unused order).2]

end Verifying

end OfflineProof

namespace Lotid

/-! The client -/

def clientUnhex (s : Text) : Option Bytes := if s.length % 2 ≠ 0 then none else unhexPairs s

def lastField (name : Text) (fields : ControlFields) : Text :=
  fields.foldl (fun found field => if field.1 = name then field.2 else found) []

inductive ProveOutcome
  | unreachable
  | refused (code : Int32) (message : Text)
  | noProof
  | wrote (bytes : Bytes)

/-- `do_prove`, up to the file that it writes. -/
def doProve (answered : Except NoReply ControlReply) : ProveOutcome :=
  match answered with
  | .error _ => .unreachable
  | .ok reply =>
      if !reply.ok then .refused reply.code reply.message
      else
        match clientUnhex (lastField (text "proof") reply.fields) with
        | none | some [] => .noProof
        | some (byte :: more) => .wrote (byte :: more)

theorem nib_hexDigit {digit : Nat} (small : digit < 16) : nib (hexDigit digit) = some digit := by
  -- sixteen digits, each against the ranges that the reader tests
  rcases digit with _ | _ | _ | _ | _ | _ | _ | _ | _ | _ | _ | _ | _ | _ | _ | _ | digit
  all_goals first | rfl | omega

theorem hex_cons (byte : UInt8) (rest : Bytes) :
    hex (byte :: rest) = hexDigit (byte.toNat / 16) :: hexDigit (byte.toNat % 16) :: hex rest := rfl

theorem unhexPairs_hex (bytes : Bytes) : unhexPairs (hex bytes) = some bytes := by
  induction bytes with
  | nil => rfl
  | cons byte rest ih =>
      have bound := byte.toNat_lt
      have halves : 16 * (byte.toNat / 16) + byte.toNat % 16 = byte.toNat := Nat.div_add_mod _ _
      rw [hex_cons, unhexPairs, nib_hexDigit (by omega),
        nib_hexDigit (Nat.mod_lt _ (by decide)), ih]
      simp only [Option.bind_eq_bind, Option.bind_some, halves, UInt8.ofNat_toNat]
      rfl

theorem hex_length (bytes : Bytes) : (hex bytes).length = 2 * bytes.length := by
  induction bytes with
  | nil => rfl
  | cons byte rest ih =>
      rw [hex_cons, List.length_cons, List.length_cons, ih, List.length_cons]
      omega

theorem clientUnhex_hex (bytes : Bytes) : clientUnhex (hex bytes) = some bytes := by
  have even : (hex bytes).length % 2 = 0 := by
    rw [hex_length]
    exact Nat.mul_mod_right 2 _
  rw [clientUnhex, if_neg (not_not_intro even), unhexPairs_hex]

theorem hexDigit_range (digit : Nat) (small : digit < 16) :
    48 ≤ hexDigit digit ∧ hexDigit digit ≤ 102 := by
  rcases digit with _ | _ | _ | _ | _ | _ | _ | _ | _ | _ | _ | _ | _ | _ | _ | _ | digit
  all_goals first | decide | omega

theorem notMem_hex {bytes : Bytes} : 10 ∉ hex bytes := by
  intro member
  obtain ⟨byte, -, digit⟩ := List.mem_flatMap.mp member
  have bound := byte.toNat_lt
  simp only [List.mem_cons, List.not_mem_nil, or_false] at digit
  rcases digit with same | same
  · have range := hexDigit_range (byte.toNat / 16) (by omega)
    rw [← same] at range
    exact absurd range.1 (by decide)
  · have range := hexDigit_range (byte.toNat % 16) (Nat.mod_lt _ (by decide))
    rw [← same] at range
    exact absurd range.1 (by decide)

theorem lastField_last {name value : Text} {before after : ControlFields}
    (apart : ∀ field ∈ after, field.1 ≠ name) :
    lastField name (before ++ (name, value) :: after) = value := by
  rw [lastField, List.foldl_append, List.foldl_cons, if_pos rfl]
  generalize before.foldl _ [] = start
  clear start
  induction after with
  | nil => rfl
  | cons field rest ih =>
      rw [List.foldl_cons, if_neg (apart field List.mem_cons_self)]
      exact ih fun other listed => apart other (List.mem_cons_of_mem _ listed)

/-! The reply with a proof -/

def proofFields (p : Proof) : ControlFields :=
  [(text "proof", hex (serialize p)), (text "kind", kindName p.kind),
    (text "reference", hexId p.reference.node),
    (text "chainLength", decimal (p.chain.lowerBound.length + p.chain.upperBound.length))]

theorem proofReply_order {p : Proof} (order : p.kind = .order) :
    proofReply p = some { fields := proofFields p ++
      [(text "chain2Length", decimal (p.chain2.lowerBound.length + p.chain2.upperBound.length)),
        (text "order", decimal (orderNumber p.order))] } := by
  rw [proofReply, if_pos order]
  rfl

theorem proofReply_bounds {p : Proof} {front back : ClockEvent} (other : p.kind ≠ .order)
    (frontFound : p.chain.lowerBound.head? = some front)
    (backFound : p.chain.upperBound.getLast? = some back) :
    proofReply p = some { fields := proofFields p ++
      [(text "lower", decimal front.timestamp.toInt),
        (text "upper", decimal back.timestamp.toInt)] } := by
  rw [proofReply, if_neg other, frontFound, backFound]
  rfl

theorem proofFields_plain (p : Proof) : (proofFields p).Plain := by
  have names : ∀ name ∈ [text "proof", text "kind", text "reference", text "chainLength"],
    9 ∉ name ∧ 10 ∉ name := by
    decide +kernel
  have kinds : ∀ kind, 10 ∉ kindName kind := by
    intro kind
    cases kind <;> simp only [kindName] <;> decide +kernel
  have zero : (10 : UInt8) ∉ text "0x" := by decide +kernel
  simp only [List.forall_mem_cons] at names
  obtain ⟨one, two, three, four, -⟩ := names
  simp only [ControlFields.Plain, proofFields, List.forall_mem_cons]
  refine ⟨⟨one.1, one.2, notMem_hex⟩, ⟨two.1, two.2, kinds _⟩, ⟨three.1, three.2, ?_⟩,
    ⟨four.1, four.2, notMem_decimal (by decide)⟩, by simp⟩
  rw [hexId, List.mem_append]
  exact not_or_intro zero notMem_hex

structure Answers (p : Proof) (fields : ControlFields) : Prop where
  proof : lastField (text "proof") fields = hex (serialize p)
  order : p.kind = .order → lastField (text "order") fields = decimal (orderNumber p.order)
  lower : p.kind ≠ .order → ∃ front, p.chain.lowerBound.head? = some front ∧
  lastField (text "lower") fields = decimal front.timestamp.toInt
  upper : p.kind ≠ .order → ∃ back, p.chain.upperBound.getLast? = some back ∧
  lastField (text "upper") fields = decimal back.timestamp.toInt

def summaryNames : List Text := [text "chain2Length", text "order", text "lower", text "upper"]

section Summary

variable {p : Proof} {first second : Text} (one : first ∈ summaryNames)
    (two : second ∈ summaryNames) (v w : Int)

include one two

theorem summary_plain : (proofFields p ++ [(first, decimal v), (second, decimal w)]).Plain := by
  have names : ∀ name ∈ summaryNames, 9 ∉ name ∧ 10 ∉ name := by decide +kernel
  intro field listed
  rcases List.mem_append.mp listed with shared | own
  · exact proofFields_plain p field shared
  · simp only [List.mem_cons, List.not_mem_nil, or_false] at own
    rcases own with rfl | rfl
    · exact ⟨(names _ one).1, (names _ one).2, notMem_decimal (by decide)⟩
    · exact ⟨(names _ two).1, (names _ two).2, notMem_decimal (by decide)⟩

theorem summary_proof :
    lastField (text "proof") (proofFields p ++ [(first, decimal v), (second, decimal w)]) = hex
    (serialize p) := by
  have others : text "kind" ≠ text "proof" ∧ text "reference" ≠ text "proof" ∧
    text "chainLength" ≠ text "proof" := by
    decide +kernel
  have apart : ∀ name ∈ summaryNames, name ≠ text "proof" := by decide +kernel
  have split : proofFields p ++ [(first, decimal v), (second, decimal w)] =
      [] ++ (text "proof", hex (serialize p)) ::
      ((proofFields p).tail ++ [(first, decimal v), (second, decimal w)]) := rfl
  rw [split]
  refine lastField_last ?_
  simp only [proofFields, List.tail_cons, List.cons_append, List.nil_append, List.forall_mem_cons]
  exact ⟨others.1, others.2.1, others.2.2, apart _ one, apart _ two, by simp⟩

end Summary

theorem proofReply_answers {p : Proof} {r : Reply} (replied : proofReply p = some r) :
    r.code = kOk ∧ r.error = [] ∧ r.fields.Plain ∧ Answers p r.fields := by
  have listed : text "chain2Length" ∈ summaryNames ∧ text "order" ∈ summaryNames ∧
      text "lower" ∈ summaryNames ∧ text "upper" ∈ summaryNames := by decide +kernel
  have apart : text "upper" ≠ text "lower" := by decide +kernel
  by_cases order : p.kind = .order
  · rw [proofReply_order order] at replied
    cases replied
    refine ⟨rfl, rfl, summary_plain listed.1 listed.2.1 _ _, summary_proof listed.1 listed.2.1 _ _,
      fun _ => ?_, fun other => absurd order other, fun other => absurd order other⟩
    rw [List.append_cons]
    exact lastField_last (by simp)
  · cases frontFound : p.chain.lowerBound.head? with
    | none => simp [proofReply, order, frontFound] at replied
    | some front =>
        cases backFound : p.chain.upperBound.getLast? with
        | none => simp [proofReply, order, frontFound, backFound] at replied
        | some back =>
            rw [proofReply_bounds order frontFound backFound] at replied
            cases replied
            refine ⟨rfl, rfl, summary_plain listed.2.2.1 listed.2.2.2 _ _,
              summary_proof listed.2.2.1 listed.2.2.2 _ _,
              fun other => absurd other order, fun _ => ⟨front, frontFound, lastField_last ?_⟩,
              fun _ => ⟨back, backFound, ?_⟩⟩
            · simp [apart]
            · rw [List.append_cons]
              exact lastField_last (by simp)

theorem doProve_wrote {p : Proof} {r : Reply} (replied : proofReply p = some r) {chunks : List Text}
    (cut : chunks.flatten = formatReply r.code r.error r.fields) (rest : List ReadResult) :
    ∃ reply, controlRequest (chunks.map .bytes ++ rest) = .ok reply ∧ Answers p reply.fields ∧
      doProve (.ok reply) = .wrote (serialize p) := by
  obtain ⟨code, error, plain, answers⟩ := proofReply_answers replied
  have number : ((kOk : Nat) : Int) = (0 : Int32).toInt := rfl
  rw [code, error, number] at cut
  have parsed := parseReply_formatReply 0 List.not_mem_nil plain
  have read := readReply_formatReply List.not_mem_nil plain cut rest
  refine ⟨_, controlRequest_of_parse read parsed, answers, ?_⟩
  have nonempty : serialize p ≠ [] := by
    refine List.ne_nil_of_length_pos ?_
    simp only [serialize, Writer.u64, List.length_append, BigEndian.digits_length]
    omega
  simp only [doProve, decide_true, Bool.not_true, Bool.false_eq_true, if_false, answers.proof,
    clientUnhex_hex]
  split
  · rename_i impossible
    cases impossible
  · rename_i empty
    exact absurd (Option.some.inj empty) nonempty
  · rename_i byte more found
    rw [Option.some.inj found]

end Lotid

end Loti
