import Loti.Control
import Loti.Library.Lines

/-!
The client side of `src/adapters/os/control.hpp`: `control_request` reads a reply piece by piece
until it has seen a blank line, and parses it by offsets. A reply comes out as it was formatted,
however the stream was split.
-/

namespace Loti.Lotid

open Lines

structure ControlReply where
  ok : Bool := false
  code : Int32 := 0
  message : Text := []
  fields : ControlFields := []
deriving DecidableEq

inductive ReadResult
  | bytes (chunk : Text)
  | closed
  | failed

/-- Without a reply: the client still waits for bytes, or `control_request` has returned
`nullopt`. -/
inductive NoReply
  | waits
  | nullopt
deriving DecidableEq

def readReply (buf : Text) : List ReadResult → Except NoReply Text
  | [] => .error .waits
  | .failed :: _ => .error .nullopt
  | .closed :: _ => .ok buf
  | .bytes chunk :: rest =>
      if hasPair 10 (buf ++ chunk) then .ok (buf ++ chunk) else readReply (buf ++ chunk) rest

def nextLine (buf : Text) (pos : Nat) : Option (Text × Nat) :=
  if buf.length ≤ pos then none
  else
    match find 10 buf pos with
    | none => some (buf.drop pos, buf.length)
    | some nl => some ((buf.drop pos).take (nl - pos), nl + 1)

/-- `std::atoi`: the `long` that `strtol` reads, saturated, is cut to an `int`. -/
def atoi (s : Text) : Int32 :=
  let unspaced := s.dropWhile fun c => c = 32 || 9 ≤ c && c ≤ 13
  let (negative, unsigned) := match unspaced with
    | 45 :: rest => (true, rest)
    | 43 :: rest => (false, rest)
    | rest => (false, rest)
  let digits := unsigned.takeWhile fun c => 48 ≤ c && c ≤ 57
  let magnitude : Int := digits.foldl (fun value digit => value * 10 + (digit.toNat - 48)) 0
  let value := if negative then -magnitude else magnitude
  Int32.ofInt (max Int64.minValue.toInt (min Int64.maxValue.toInt value))

def parseStatus (status : Text) : Option ControlReply := do
  let s1 ← find 32 status 0
  let s2 ← find 32 status (s1 + 1)
  let s3 := find 32 status (s2 + 1)
  let kind := (status.drop (s1 + 1)).take (s2 - s1 - 1)
  let code := match s3 with
    | none => status.drop (s2 + 1)
    | some s3 => (status.drop (s2 + 1)).take (s3 - s2 - 1)
  let message := match s3 with
    | none => []
    | some s3 => status.drop (s3 + 1)
  return { ok := kind = text "OK", code := atoi code, message :=
    if kind = text "OK" then [] else message }

def parseField (line : Text) : Text × Text :=
  match find 9 line 0 with
  | none => (line, [])
  | some tab => (line.take tab, line.drop (tab + 1))

/-- The loop over the field lines from `pos`. Every round moves on, so there are fewer rounds than
bytes. -/
def parseFields (buf : Text) : Nat → Nat → ControlFields
  | 0, _ => []
  | rounds + 1, pos =>
      match nextLine buf pos with
      | none => []
      | some (line, next) =>
          if line = [] then [] else parseField line :: parseFields buf rounds next

def parseReply (buf : Text) : Option ControlReply := do
  let (status, pos) ← nextLine buf 0
  let reply ← parseStatus status
  return { reply with fields := parseFields buf buf.length pos }

def controlRequest (reads : List ReadResult) : Except NoReply ControlReply := do
  let buf ← readReply [] reads
  match parseReply buf with
  | some reply => return reply
  | none => throw .nullopt

/-! Numbers in decimal -/

section Decimal

theorem utf8EncodeChar_ascii {c : Char} (ascii : c.toNat < 128) :
    String.utf8EncodeChar c = [UInt8.ofNat c.toNat] := by
  have small : c.val.toNat ≤ 127 := Nat.le_of_lt_succ ascii
  rw [String.utf8EncodeChar]
  exact if_pos small

theorem text_ofList (chars : List Char) (ascii : ∀ c ∈ chars, c.toNat < 128) :
    text (String.ofList chars) = chars.map fun c => UInt8.ofNat c.toNat := by
  have encoded : chars.flatMap String.utf8EncodeChar = chars.map fun c => UInt8.ofNat c.toNat := by
    rw [List.map_eq_flatMap]
    exact List.flatMap_congr fun c member => utf8EncodeChar_ascii (ascii c member)
  rw [text, String.toUTF8, String.toByteArray_ofList, List.utf8Encode, encoded]
  simp

def digitBytes (n : Nat) : Text := (Nat.toDigits 10 n).map fun c => UInt8.ofNat c.toNat

theorem isDigit_bounds {n : Nat} {c : Char} (digit : c ∈ Nat.toDigits 10 n) :
    48 ≤ c.toNat ∧ c.toNat ≤ 57 :=
  Char.isDigit_iff_toNat.mp (Nat.isDigit_of_mem_toDigits (by decide) (by decide) digit)

theorem toNat_digit {c : Char} (bounds : 48 ≤ c.toNat ∧ c.toNat ≤ 57) :
    (UInt8.ofNat c.toNat).toNat = c.toNat :=
  UInt8.toNat_ofNat_of_lt' (Nat.lt_of_le_of_lt bounds.2 (by decide))

theorem digitBytes_bounds {n : Nat} {byte : UInt8} (member : byte ∈ digitBytes n) :
    48 ≤ byte ∧ byte ≤ 57 := by
  obtain ⟨c, digit, rfl⟩ := List.mem_map.mp member
  have bounds := isDigit_bounds digit
  rw [UInt8.le_iff_toNat_le, UInt8.le_iff_toNat_le, toNat_digit bounds]
  exact bounds

theorem digitBytes_ne_nil (n : Nat) : digitBytes n ≠ [] := by
  rw [digitBytes, Ne, List.map_eq_nil_iff]
  exact Nat.toDigits_ne_nil

theorem decimal_ofNat (n : Nat) : decimal (Int.ofNat n) = digitBytes n := by
  refine text_ofList (Nat.toDigits 10 n) fun c digit => ?_
  have := (isDigit_bounds digit).2
  omega

theorem decimal_negSucc (n : Nat) : decimal (Int.negSucc n) = 45 :: digitBytes (n + 1) := by
  have spelled : toString (Int.negSucc n) = String.ofList ('-' :: Nat.toDigits 10 (n + 1)) :=
    (@String.ofList_append ['-'] (Nat.toDigits 10 (n + 1))).symm
  rw [decimal, spelled, text_ofList]
  · rfl
  · intro c member
    rcases List.mem_cons.mp member with rfl | digit
    · decide
    · have := (isDigit_bounds digit).2
      omega

theorem decimal_bytes {value : Int} {byte : UInt8} (member : byte ∈ decimal value) :
    byte = 45 ∨ 48 ≤ byte ∧ byte ≤ 57 := by
  cases value with
  | ofNat n =>
      rw [decimal_ofNat] at member
      exact Or.inr (digitBytes_bounds member)
  | negSucc n =>
      rw [decimal_negSucc] at member
      rcases List.mem_cons.mp member with rfl | digit
      · exact Or.inl rfl
      · exact Or.inr (digitBytes_bounds digit)

theorem notMem_decimal {value : Int} {byte : UInt8} (low : byte < 45) : byte ∉ decimal value := by
  intro member
  rcases decimal_bytes member with rfl | ⟨above, -⟩
  · exact absurd low (by decide)
  · rw [UInt8.lt_iff_toNat_lt] at low
    rw [UInt8.le_iff_toNat_le] at above
    have : (45 : UInt8).toNat < (48 : UInt8).toNat := by decide
    omega

def digitsValue (digits : Text) : Int :=
  digits.foldl (fun value digit => value * 10 + (digit.toNat - 48)) 0

theorem digitsValue_digitBytes (n : Nat) : digitsValue (digitBytes n) = n := by
  have folds : ∀ (chars : List Char) (start : Nat), (∀ c ∈ chars, 48 ≤ c.toNat ∧ c.toNat ≤ 57) →
      (chars.map fun c => UInt8.ofNat c.toNat).foldl
      (fun (value : Int) digit => value * 10 + (digit.toNat - 48)) start =
        (Nat.ofDigitChars 10 chars start : Nat) := by
    intro chars
    induction chars with
    | nil => intro start _; rfl
    | cons c rest ih =>
        intro start bounds
        have here := bounds c List.mem_cons_self
        rw [List.map_cons, List.foldl_cons, Nat.ofDigitChars_cons,
          ← ih _ fun other member => bounds other (List.mem_cons_of_mem _ member)]
        congr 1
        have zero : '0'.toNat = 48 := rfl
        rw [toNat_digit here, zero]
        omega
  rw [digitsValue, digitBytes, ← Int.ofNat_zero, folds _ 0 fun c digit => isDigit_bounds digit]
  rw [Nat.ofDigitChars_ten_toDigits]

def saturated (value : Int) : Int32 :=
  Int32.ofInt (max Int64.minValue.toInt (min Int64.maxValue.toInt value))

theorem saturated_toInt (code : Int32) : saturated code.toInt = code := by
  have low := Int32.le_toInt code
  have high := Int32.toInt_lt code
  have wide : max Int64.minValue.toInt (min Int64.maxValue.toInt code.toInt) = code.toInt := by
    have least : Int64.minValue.toInt = -9223372036854775808 := by decide
    have greatest : Int64.maxValue.toInt = 9223372036854775807 := by decide
    rw [least, greatest]
    omega
  rw [saturated, wide, Int32.ofInt_toInt]

variable {digits : Text} (bounds : ∀ d ∈ digits, 48 ≤ d ∧ d ≤ 57)

include bounds

theorem takeWhile_digits : digits.takeWhile (fun c => 48 ≤ c && c ≤ 57) = digits := by
  rw [List.takeWhile_eq_self_iff]
  intro d member
  simpa using bounds d member

theorem atoi_digits (some : digits ≠ []) : atoi digits = saturated (digitsValue digits) := by
  obtain ⟨d, rest, rfl⟩ := List.exists_cons_of_ne_nil some
  have here := bounds d List.mem_cons_self
  have unspaced : (d :: rest).dropWhile (fun c => c = 32 || 9 ≤ c && c ≤ 13) = d :: rest := by
    apply List.dropWhile_cons_of_neg
    have above := UInt8.le_iff_toNat_le.mp here.1
    have low : (13 : UInt8).toNat < (48 : UInt8).toNat ∧
      (32 : UInt8).toNat < (48 : UInt8).toNat := by decide
    simp only [Bool.or_eq_true, Bool.and_eq_true, decide_eq_true_eq, not_or, not_and]
    refine ⟨?_, fun _ => ?_⟩
    · rintro rfl
      omega
    · rw [UInt8.le_iff_toNat_le]
      omega
  have unsigned : d ≠ 45 ∧ d ≠ 43 := by
    constructor <;> rintro rfl <;> exact absurd here.1 (by decide)
  simp only [atoi, unspaced]
  split
  · rename_i same
    exact absurd (List.cons.inj same).1 unsigned.1
  · rename_i same
    exact absurd (List.cons.inj same).1 unsigned.2
  · simp only [takeWhile_digits bounds, Bool.false_eq_true, if_false]
    rfl

theorem atoi_minus : atoi (45 :: digits) = saturated (-digitsValue digits) := by
  have unspaced : (45 :: digits).dropWhile (fun c => c = 32 || 9 ≤ c && c ≤ 13) = 45 :: digits :=
    List.dropWhile_cons_of_neg (by decide)
  rw [atoi, unspaced]
  simp only [takeWhile_digits bounds, if_true]
  rfl

end Decimal

theorem atoi_decimal (code : Int32) : atoi (decimal code.toInt) = code := by
  cases value : code.toInt with
  | ofNat n =>
      rw [decimal_ofNat, atoi_digits (fun d => digitBytes_bounds) (digitBytes_ne_nil n),
        digitsValue_digitBytes]
      exact (congrArg saturated value.symm).trans (saturated_toInt code)
  | negSucc n =>
      rw [decimal_negSucc, atoi_minus fun d => digitBytes_bounds, digitsValue_digitBytes]
      exact (congrArg saturated value.symm).trans (saturated_toInt code)

/-! The round trip -/

def statusLine (code : Int) (error : Text) : Text :=
  text "LOTI/1" ++ if error = [] then text " OK " ++ decimal code else text " ERR " ++
    decimal code ++ [32] ++ error

def fieldLine (field : Text × Text) : Text := field.1 ++ [9] ++ field.2

theorem formatReply_eq (code : Int) (error : Text) (fields : ControlFields) :
    formatReply code error fields = closed 10
    (statusLine code error :: fields.map fieldLine) ++ [10] := by
  rw [formatReply, statusLine, closed_cons, closed, List.flatMap_map]
  split <;> simp [fieldLine]

def ControlFields.Plain (fields : ControlFields) : Prop :=
  ∀ field ∈ fields, 9 ∉ field.1 ∧ 10 ∉ field.1 ∧ 10 ∉ field.2

theorem fieldLine_proper {fields : ControlFields} (plain : fields.Plain) :
    Proper 10 (fields.map fieldLine) := by
  intro line member
  obtain ⟨field, listed, rfl⟩ := List.mem_map.mp member
  obtain ⟨-, key, value⟩ := plain field listed
  refine ⟨by simp [fieldLine], ?_⟩
  simp only [fieldLine, List.mem_append, List.mem_singleton, not_or]
  exact ⟨⟨key, by decide⟩, value⟩

theorem statusLine_proper (code : Int) {error : Text} (oneLine : 10 ∉ error) :
    statusLine code error ≠ [] ∧ 10 ∉ statusLine code error := by
  have version : text "LOTI/1" = [76, 79, 84, 73, 47, 49] := by decide +kernel
  have ok : text " OK " = [32, 79, 75, 32] := by decide +kernel
  have err : text " ERR " = [32, 69, 82, 82, 32] := by decide +kernel
  have number : (10 : UInt8) ∉ decimal code := notMem_decimal (by decide)
  rw [statusLine, version]
  refine ⟨by simp, ?_⟩
  split
  · simp [ok, number]
  · simp [err, number, oneLine]

theorem nextLine_of_drop {buf line rest : Text} {pos : Nat}
    (stands : buf.drop pos = line ++ 10 :: rest) (apart : 10 ∉ line) :
    nextLine buf pos = some (line, pos + line.length + 1) := by
  have inside : ¬buf.length ≤ pos := by
    intro beyond
    rw [List.drop_eq_nil_of_le beyond] at stands
    exact absurd stands.symm (by simp)
  rw [nextLine, if_neg inside, find_of_drop stands apart]
  simp only [stands, Nat.add_sub_cancel_left, List.take_left']

theorem parseField_fieldLine {field : Text × Text} (key : 9 ∉ field.1) :
    parseField (fieldLine field) = field := by
  have stands : (fieldLine field).drop 0 = field.1 ++ 9 :: field.2 := by simp [fieldLine]
  rw [parseField, find_of_drop stands key]
  simp [fieldLine]

theorem parseFields_closed {buf : Text} {fields : ControlFields} (plain : fields.Plain)
    {rounds pos : Nat} (stands : buf.drop pos = closed 10 (fields.map fieldLine) ++ [10])
    (enough : fields.length < rounds) :
    parseFields buf rounds pos = fields := by
  induction fields generalizing rounds pos with
  | nil =>
      obtain ⟨rounds, rfl⟩ := Nat.exists_eq_add_of_lt enough
      have blank : nextLine buf pos = some ([], pos + 0 + 1) := nextLine_of_drop stands (by simp)
      simp [parseFields, blank]
  | cons field fields ih =>
      obtain ⟨more, rfl⟩ : ∃ more, rounds = more + 1 := ⟨rounds - 1, by omega⟩
      obtain ⟨key, keyLine, value⟩ := plain field List.mem_cons_self
      have proper := fieldLine_proper plain (fieldLine field) (by simp)
      rw [List.map_cons, closed_cons, List.append_assoc, List.cons_append] at stands
      have later : buf.drop (pos + (fieldLine field).length + 1) = closed 10
        (fields.map fieldLine) ++ [10] := by
        rw [Nat.add_assoc, ← List.drop_drop, stands, ← List.drop_drop, List.drop_left,
          List.drop_one, List.tail_cons]
      rw [parseFields, nextLine_of_drop stands proper.2]
      simp only [proper.1, if_false, parseField_fieldLine key]
      rw [ih (fun other member => plain other (List.mem_cons_of_mem _ member)) later
        (by simpa using enough)]

section Status

variable {version kind number : Text} (versionWord : 32 ∉ version) (kindWord : 32 ∉ kind)
    (numberWord : 32 ∉ number)

include versionWord kindWord numberWord

theorem parseStatus_of_two : parseStatus (version ++ 32 :: (kind ++ 32 :: number)) =
    some { ok := kind = text "OK", code := atoi number } := by
  have s1 : find 32 (version ++ 32 :: (kind ++ 32 :: number)) 0 = some (0 + version.length) :=
    find_of_drop rfl versionWord
  have second : (version ++ 32 :: (kind ++ 32 :: number)).drop (version.length + 1) = kind ++ 32 ::
    number := by simp
  have s2 := find_of_drop second kindWord
  have third : (version ++ 32 :: (kind ++ 32 :: number)).drop
    (version.length + 1 + kind.length + 1) = number := by
    rw [Nat.add_assoc (_ + 1), ← List.drop_drop, second]
    simp
  have s3 : find 32 (version ++ 32 :: (kind ++ 32 :: number))
    (version.length + 1 + kind.length + 1) = none :=
    find_none (by rwa [third])
  rw [Nat.zero_add] at s1
  have width : version.length + 1 + kind.length - version.length - 1 = kind.length := by omega
  simp only [parseStatus, s1, s2, s3, second, third, width, List.take_left', Option.bind_eq_bind,
    Option.bind_some, ite_self]
  rfl

theorem parseStatus_of_three (message : Text) :
    parseStatus (version ++ 32 :: (kind ++ 32 :: (number ++ 32 :: message))) =
      some { ok := kind = text "OK", code := atoi number, message :=
        if kind = text "OK" then [] else message } := by
  have s1 : find 32 (version ++ 32 :: (kind ++ 32 :: (number ++ 32 :: message))) 0 =
    some (0 + version.length) :=
    find_of_drop rfl versionWord
  have second : (version ++ 32 :: (kind ++ 32 :: (number ++ 32 :: message))).drop
      (version.length + 1) = kind ++ 32 :: (number ++ 32 :: message) := by simp
  have s2 := find_of_drop second kindWord
  have third : (version ++ 32 :: (kind ++ 32 :: (number ++ 32 :: message))).drop
      (version.length + 1 + kind.length + 1) = number ++ 32 :: message := by
    rw [Nat.add_assoc (_ + 1), ← List.drop_drop, second]
    simp
  have s3 := find_of_drop third numberWord
  have last : (version ++ 32 :: (kind ++ 32 :: (number ++ 32 :: message))).drop
      (version.length + 1 + kind.length + 1 + number.length + 1) = message := by
    rw [Nat.add_assoc (_ + 1), ← List.drop_drop, third]
    simp
  rw [Nat.zero_add] at s1
  have kindWidth : version.length + 1 + kind.length - version.length - 1 = kind.length := by omega
  have numberWidth :
      version.length + 1 + kind.length + 1 +
      number.length - (version.length + 1 + kind.length) - 1 =
      number.length := by omega
  simp only [parseStatus, s1, s2, s3, second, third, last, kindWidth, numberWidth, List.take_left',
    Option.bind_eq_bind, Option.bind_some]
  rfl

end Status

theorem parseStatus_statusLine (code : Int32) (error : Text) :
    parseStatus (statusLine code.toInt error) =
    some { ok := error = [], code, message := error } := by
  have version : (32 : UInt8) ∉ text "LOTI/1" := by decide +kernel
  have number : (32 : UInt8) ∉ decimal code.toInt := notMem_decimal (by decide)
  by_cases succeeded : error = []
  · have spaced : text " OK " = 32 :: text "OK" ++ [32] := by decide +kernel
    have ok : (32 : UInt8) ∉ text "OK" := by decide +kernel
    have parsed := parseStatus_of_two version ok number
    rw [atoi_decimal] at parsed
    subst succeeded
    simpa [statusLine, spaced] using parsed
  · have spaced : text " ERR " = 32 :: text "ERR" ++ [32] := by decide +kernel
    have err : (32 : UInt8) ∉ text "ERR" := by decide +kernel
    have other : text "ERR" ≠ text "OK" := by simp
    have parsed := parseStatus_of_three version err number error
    rw [atoi_decimal, if_neg other] at parsed
    simpa [statusLine, spaced, succeeded, other] using parsed

theorem parseReply_formatReply (code : Int32) {error : Text} {fields : ControlFields}
    (oneLine : 10 ∉ error) (plain : fields.Plain) :
    parseReply (formatReply code.toInt error fields) =
    some { ok := error = [], code, message := error, fields } := by
  have proper := statusLine_proper code.toInt oneLine
  have stands : (formatReply code.toInt error fields).drop 0 =
      statusLine code.toInt error ++ 10 :: (closed 10 (fields.map fieldLine) ++ [10]) := by
    rw [List.drop_zero, formatReply_eq, closed_cons, List.append_assoc, List.cons_append]
  have status := nextLine_of_drop stands proper.2
  rw [Nat.zero_add] at status
  have later :
      (formatReply code.toInt error fields).drop ((statusLine code.toInt error).length + 1) =
      closed 10 (fields.map fieldLine) ++ [10] := by
    rw [List.drop_zero] at stands
    rw [stands]
    simp
  have enough : fields.length < (formatReply code.toInt error fields).length := by
    have lines := length_le_closed (c := (10 : UInt8)) (fields.map fieldLine)
    rw [List.length_map] at lines
    rw [List.drop_zero] at stands
    rw [stands, List.length_append, List.length_cons, List.length_append]
    omega
  rw [parseReply, status]
  simp only [Option.bind_eq_bind, Option.bind_some, parseStatus_statusLine,
    parseFields_closed plain later enough]
  rfl

theorem readReply_bytes {lines : List Text} (proper : Proper 10 lines) (more : lines ≠ [])
    (buf : Text) {chunks : List Text} (whole : buf ++ chunks.flatten = closed 10 lines ++ [10])
    (short : hasPair 10 buf = false) (rest : List ReadResult) :
    readReply buf (chunks.map .bytes ++ rest) = .ok (closed 10 lines ++ [10]) := by
  induction chunks generalizing buf with
  | nil =>
      rw [List.flatten_nil, List.append_nil] at whole
      rw [whole, hasPair_framed more] at short
      cases short
  | cons chunk chunks ih =>
      rw [List.flatten_cons, ← List.append_assoc] at whole
      rw [List.map_cons, List.cons_append, readReply]
      split
      · rename_i pair
        rw [whole_of_pair proper ⟨_, whole⟩ pair]
      · rename_i none
        exact ih _ whole (Bool.eq_false_iff.mpr none)

theorem readReply_formatReply {code : Int} {error : Text} {fields : ControlFields}
    (oneLine : 10 ∉ error) (plain : fields.Plain) {chunks : List Text}
    (cut : chunks.flatten = formatReply code error fields) (rest : List ReadResult) :
    readReply [] (chunks.map .bytes ++ rest) = .ok (formatReply code error fields) := by
  have proper : Proper 10 (statusLine code error :: fields.map fieldLine) := by
    intro line member
    rcases List.mem_cons.mp member with rfl | listed
    · exact statusLine_proper code oneLine
    · exact fieldLine_proper plain line listed
  rw [formatReply_eq] at cut ⊢
  exact readReply_bytes proper (by simp) [] cut rfl rest

theorem controlRequest_of_parse {reads : List ReadResult} {buf : Text} {reply : ControlReply}
    (read : readReply [] reads = .ok buf) (parsed : parseReply buf = some reply) :
    controlRequest reads = .ok reply := by
  rw [controlRequest, read]
  simp only [bind, Except.bind, parsed]
  rfl

/-- However its bytes arrive, and whatever the reads after them report, a reply is parsed as it was
formatted. -/
theorem controlRequest_roundTrip (code : Int32) (error : Text) (fields : ControlFields)
    (oneLine : 10 ∉ error) (plain : ∀ field ∈ fields, 9 ∉ field.1 ∧ 10 ∉ field.1 ∧ 10 ∉ field.2)
    (chunks : List Text)
    (cut : chunks.flatten = formatReply code.toInt error fields) (rest : List ReadResult) :
    controlRequest (chunks.map .bytes ++ rest) =
    .ok { ok := error = [], code, message := error, fields } :=
  controlRequest_of_parse (readReply_formatReply oneLine plain cut rest)
    (parseReply_formatReply code oneLine plain)

/-- An error with a field without key and a tab in a value, cut between the two last newlines. -/
theorem controlRequest_roundTrip_sample :
    controlRequest [.bytes (text "LOTI/1 ERR -7 no"), .bytes (text " peer\n\ta\tb\nk\t\n"),
      .bytes [10], .closed] = .ok { ok := false, code := -7, message := text "no peer", fields :=
      [([], text "a\tb"), (text "k", [])] } := by
  have parsed := controlRequest_roundTrip (-7) (text "no peer") [([], text "a\tb"), (text "k", [])]
    (by decide +kernel) (by decide +kernel) [text "LOTI/1 ERR -7 no", text " peer\n\ta\tb\nk\t\n",
      [10]] (by decide +kernel) [.closed]
  have failed : text "no peer" ≠ [] := by simp
  simpa [failed] using parsed

end Loti.Lotid
