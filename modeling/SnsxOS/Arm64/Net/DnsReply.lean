import SnsxOS.Framework.Layout
import SnsxOS.Arm64.Net.Dns

/-!
# Reading a DNS reply

The scan of a reply with every read checked against the length of the datagram, and the messages
that are well formed. No read leaves the datagram, whatever it holds. Of a well-formed message the
scan finds the first address of the answer section.
-/

namespace SnsxOS.Arm64

open Framework

/-! ## Checked reads -/

def checkedBe16 (payload : Bytes) (offset : Nat) : Option UInt16 := do
  let high ← payload[offset]?
  let low ← payload[offset + 1]?
  some (high.toUInt16 <<< 8 ||| low.toUInt16)

def checkedBe32 (payload : Bytes) (offset : Nat) : Option UInt32 := do
  let b0 ← payload[offset]?
  let b1 ← payload[offset + 1]?
  let b2 ← payload[offset + 2]?
  let b3 ← payload[offset + 3]?
  some (b0.toUInt32 <<< 24 ||| b1.toUInt32 <<< 16 ||| b2.toUInt32 <<< 8 ||| b3.toUInt32)

/-- `dns_skip_name`. -/
def checkedSkipName (packet : Bytes) (offset : Nat) : Option Nat :=
  if offset < packet.length then
    match packet[offset]? with
    | none => none
    | some length =>
        if length = 0 then some (offset + 1)
        else if length &&& 0xC0 = 0xC0 then some (offset + 2)
        else checkedSkipName packet (offset + length.toNat + 1)
  else some packet.length
termination_by packet.length - offset

/-- The loop over the questions. -/
def checkedSkipQuestions (payload : Bytes) : Nat → Nat → Option Nat
  | 0, offset => some offset
  | questions + 1, offset => do
      let offset ← checkedSkipName payload offset
      if payload.length < offset + 4 then some offset
      else checkedSkipQuestions payload questions (offset + 4)

/-- The loop over the answers. -/
def checkedScanAnswers (payload : Bytes) : Nat → Nat → Option (Option UInt32)
  | 0, _ => some none
  | answers + 1, offset =>
      if payload.length < offset + 10 then some none
      else do
        let offset ← checkedSkipName payload offset
        if payload.length < offset + 10 then some none
        else do
          let type ← checkedBe16 payload offset
          let classCode ← checkedBe16 payload (offset + 2)
          let rdlength ← checkedBe16 payload (offset + 8)
          if payload.length < offset + 10 + rdlength.toNat then some none
          else if type = 1 ∧ classCode = 1 ∧ rdlength = 4 then
            (checkedBe32 payload (offset + 10)).map some
          else checkedScanAnswers payload answers (offset + 10 + rdlength.toNat)

/-- What the receive loop does with the payload of a datagram from port 53 to its own. -/
def checkedAnswer (queryId : UInt16) (payload : Bytes) : Option (Option UInt32) :=
  if payload.length < 12 then some none
  else do
    let id ← checkedBe16 payload 0
    if id ≠ queryId then some none
    else do
      let flags ← checkedBe16 payload 2
      if flags &&& 0x8000 = 0 then some none
      else do
        let questions ← checkedBe16 payload 4
        let answers ← checkedBe16 payload 6
        let offset ← checkedSkipQuestions payload questions.toNat 12
        checkedScanAnswers payload answers.toNat offset

section Checked

variable {payload : Bytes} {offset : Nat}

theorem getElem?_of_lt (h : offset < payload.length) :
    payload[offset]? = some (netByte payload offset) := by
  rw [netByte, List.getD_eq_getElem?_getD, List.getElem?_eq_getElem h, Option.getD_some]

theorem checkedBe16_eq (h : offset + 2 ≤ payload.length) :
    checkedBe16 payload offset = some (netReadBe16 payload offset) := by
  rw [checkedBe16, getElem?_of_lt (by omega), getElem?_of_lt (by omega)]
  rfl

theorem checkedBe32_eq (h : offset + 4 ≤ payload.length) :
    checkedBe32 payload offset = some (netReadBe32 payload offset) := by
  rw [checkedBe32, getElem?_of_lt (by omega), getElem?_of_lt (by omega),
    getElem?_of_lt (by omega), getElem?_of_lt (by omega)]
  rfl

/-- The bytes of a label are passed one by one. -/
theorem dnsSkipFrom_label (packetLen label offset : Nat) (packet : Bytes) :
    dnsSkipFrom packetLen label offset packet =
      dnsSkipFrom packetLen 0 (offset + label) (packet.drop label) := by
  induction label generalizing offset packet with
  | zero => rfl
  | succ label ih =>
    cases packet with
    | nil => rfl
    | cons a packet =>
      rw [dnsSkipFrom, ih, List.drop_succ_cons]
      congr 1
      omega

theorem dnsSkipName_of_le (h : payload.length ≤ offset) :
    dnsSkipName payload offset = payload.length := by
  rw [dnsSkipName, List.drop_eq_nil_of_le h, dnsSkipFrom]

theorem dnsSkipName_of_lt (h : offset < payload.length) : dnsSkipName payload offset =
    if payload[offset] = 0 then offset + 1
    else if payload[offset] &&& 0xC0 = 0xC0 then offset + 2
    else dnsSkipName payload (offset + payload[offset].toNat + 1) := by
  rw [dnsSkipName, List.drop_eq_getElem_cons h, dnsSkipFrom, dnsSkipFrom_label, List.drop_drop,
    dnsSkipName, Nat.add_right_comm]

theorem checkedSkipName_eq (payload : Bytes) (offset : Nat) :
    checkedSkipName payload offset = some (dnsSkipName payload offset) := by
  fun_induction checkedSkipName payload offset with
  | case1 offset h hnone =>
    rw [List.getElem?_eq_getElem h] at hnone
    cases hnone
  | case2 offset h hzero =>
    rw [List.getElem?_eq_getElem h] at hzero
    rw [dnsSkipName_of_lt h, if_pos (Option.some.inj hzero)]
  | case3 offset h length hlength hnonzero hpointer =>
    obtain rfl := Option.some.inj ((List.getElem?_eq_getElem h).symm.trans hlength)
    rw [dnsSkipName_of_lt h, if_neg hnonzero, if_pos hpointer]
  | case4 offset h length hlength hnonzero hlabel ih =>
    obtain rfl := Option.some.inj ((List.getElem?_eq_getElem h).symm.trans hlength)
    rw [dnsSkipName_of_lt h, if_neg hnonzero, if_neg hlabel, ih]
  | case5 offset h => rw [dnsSkipName_of_le (Nat.le_of_not_lt h)]

theorem checkedSkipQuestions_eq (payload : Bytes) (questions offset : Nat) :
    checkedSkipQuestions payload questions offset =
      some (dnsSkipQuestions payload questions offset) := by
  induction questions generalizing offset with
  | zero => rfl
  | succ questions ih =>
    rw [checkedSkipQuestions, checkedSkipName_eq, dnsSkipQuestions]
    dsimp only [Option.bind_eq_bind, Option.bind_some]
    split
    · rfl
    · exact ih _

/-- Every read of the loop over the answers is guarded by a comparison with the length. -/
theorem checkedScanAnswers_eq (payload : Bytes) (answers offset : Nat) :
    checkedScanAnswers payload answers offset = some (dnsScanAnswers payload answers offset) := by
  induction answers generalizing offset with
  | zero => rfl
  | succ answers ih =>
    rw [checkedScanAnswers, dnsScanAnswers, checkedSkipName_eq]
    split
    · rfl
    dsimp only [Option.bind_eq_bind, Option.bind_some]
    split
    · rfl
    rename_i hfits
    rw [checkedBe16_eq (by omega), checkedBe16_eq (by omega), checkedBe16_eq (by omega)]
    dsimp only [Option.bind_some]
    split
    · rfl
    rename_i hdata
    have hfour : (netReadBe16 payload (dnsSkipName payload offset + 8)).toNat = 4 ↔
        netReadBe16 payload (dnsSkipName payload offset + 8) = 4 := by
      rw [← UInt16.toNat_inj]
      rfl
    simp only [hfour]
    split
    · rename_i haddress
      rw [haddress.2.2] at hdata
      rw [checkedBe32_eq (Nat.le_of_not_lt hdata), Option.map_some]
    · exact ih _

/-- No read leaves the datagram. -/
theorem checkedAnswer_eq (queryId : UInt16) (payload : Bytes) :
    checkedAnswer queryId payload =
      some (if 12 ≤ payload.length ∧ netReadBe16 payload 0 = queryId ∧
          netReadBe16 payload 2 &&& 0x8000 ≠ 0 then dnsAnswer payload else none) := by
  rw [checkedAnswer]
  by_cases hlen : payload.length < 12
  · rw [if_pos hlen, if_neg (by omega)]
  · rw [if_neg hlen, checkedBe16_eq (by omega), checkedBe16_eq (by omega),
      checkedBe16_eq (by omega), checkedBe16_eq (by omega)]
    dsimp only [Option.bind_eq_bind, Option.bind_some]
    rw [checkedSkipQuestions_eq, Option.bind_some, checkedScanAnswers_eq]
    split
    · rename_i hid
      rw [if_neg (by tauto)]
    · split
      · rename_i hflags
        rw [if_neg (by tauto)]
      · rw [if_pos ⟨by omega, by tauto, by tauto⟩]
        rfl

end Checked

/-! ## Well-formed messages -/

/-- The bytes of a label. -/
abbrev DnsLabel := { label : Bytes // 0 < label.length ∧ label.length ≤ 63 }

/-- A name ends at the root or goes on where a compression pointer leads. -/
inductive DnsNameEnd where
  | root
  | pointer (target : UInt16)

structure DnsName where
  labels : List DnsLabel
  last : DnsNameEnd

structure DnsQuestion where
  name : DnsName
  type : UInt16
  classCode : UInt16

structure DnsRecord where
  name : DnsName
  type : UInt16
  classCode : UInt16
  ttl : UInt32
  data : Bytes
  data_lt : data.length < 2 ^ 16

/-- A message; `rest` holds the records behind the answer section. -/
structure DnsMessage where
  id : UInt16
  flags : UInt16
  questions : List DnsQuestion
  answers : List DnsRecord
  authorityCount : UInt16
  additionalCount : UInt16
  rest : Bytes
  questions_lt : questions.length < 2 ^ 16
  answers_lt : answers.length < 2 ^ 16

def encodeLabel (label : Bytes) : Bytes := UInt8.ofNat label.length :: label

def encodeLabels (labels : List DnsLabel) : Bytes := labels.flatMap fun label => encodeLabel label.1

def DnsNameEnd.encode : DnsNameEnd → Bytes
  | .root => [0]
  | .pointer target => [(0xC0 : UInt8) ||| (target >>> 8).toUInt8, target.toUInt8]

def DnsName.encode (name : DnsName) : Bytes := encodeLabels name.labels ++ name.last.encode

def DnsQuestion.encode (question : DnsQuestion) : Bytes :=
  question.name.encode ++ (netWriteBe16 question.type ++ netWriteBe16 question.classCode)

def DnsRecord.encode (record : DnsRecord) : Bytes :=
  record.name.encode ++ (netWriteBe16 record.type ++ (netWriteBe16 record.classCode ++
    (netWriteBe32 record.ttl ++ (netWriteBe16 (UInt16.ofNat record.data.length) ++ record.data))))

def DnsMessage.header (message : DnsMessage) : Bytes :=
  netWriteBe16 message.id ++ (netWriteBe16 message.flags ++
    (netWriteBe16 (UInt16.ofNat message.questions.length) ++
      (netWriteBe16 (UInt16.ofNat message.answers.length) ++
        (netWriteBe16 message.authorityCount ++ netWriteBe16 message.additionalCount))))

def DnsMessage.encode (message : DnsMessage) : Bytes :=
  message.header ++ (message.questions.flatMap DnsQuestion.encode ++
    (message.answers.flatMap DnsRecord.encode ++ message.rest))

/-- A record of type A and class IN with an address. -/
def DnsRecord.IsAddress (record : DnsRecord) : Prop :=
  record.type = 1 ∧ record.classCode = 1 ∧ record.data.length = 4

instance : DecidablePred DnsRecord.IsAddress := fun _ => inferInstanceAs (Decidable (_ ∧ _))

/-- The address of the first such record. -/
def firstAddress (records : List DnsRecord) : Option UInt32 :=
  (records.find? fun record => record.IsAddress).map fun record => netReadBe32 record.data 0

theorem firstAddress_cons (record : DnsRecord) (records : List DnsRecord) :
    firstAddress (record :: records) =
      if record.IsAddress then some (netReadBe32 record.data 0) else firstAddress records := by
  rw [firstAddress, List.find?_cons]
  split
  · rename_i haddress
    rw [if_pos (of_decide_eq_true haddress)]
    rfl
  · rename_i haddress
    rw [if_neg (of_decide_eq_false haddress)]
    rfl

section Layout

variable {payload : Bytes} {offset : Nat}

theorem netByte_of_liesAt {bytes : Bytes} (h : LiesAt payload offset bytes) {i : Nat}
    (hi : i < bytes.length) : netByte payload (offset + i) = netByte bytes i := by
  rw [netByte, netByte, List.getD_eq_getElem?_getD, List.getD_eq_getElem?_getD, h.getElem? hi]

theorem netReadBe16_of_liesAt {value : UInt16} (h : LiesAt payload offset (netWriteBe16 value)) :
    netReadBe16 payload offset = value := by
  have h0 := netByte_of_liesAt h (i := 0) Nat.zero_lt_two
  have h1 := netByte_of_liesAt h (i := 1) Nat.one_lt_two
  rw [netReadBe16, ← Nat.add_zero offset, h0, Nat.add_zero, h1]
  exact be16_bytes value

theorem netReadBe32_of_liesAt {bytes : Bytes} (h : LiesAt payload offset bytes)
    (hlen : bytes.length = 4) : netReadBe32 payload offset = netReadBe32 bytes 0 := by
  have hbyte : ∀ i < 4, netByte payload (offset + i) = netByte bytes i :=
    fun i hi => netByte_of_liesAt h (hlen.symm ▸ hi)
  rw [netReadBe32, netReadBe32, ← Nat.add_zero offset, hbyte 0 (by decide), Nat.add_zero,
    hbyte 1 (by decide), hbyte 2 (by decide), hbyte 3 (by decide)]

/-- The length byte of a label is neither the root nor a pointer. -/
theorem labelLength_plain {n : Nat} (hpos : 0 < n) (hle : n ≤ 63) :
    UInt8.ofNat n ≠ 0 ∧ UInt8.ofNat n &&& 0xC0 ≠ 0xC0 ∧ (UInt8.ofNat n).toNat = n := by
  interval_cases n <;> decide

theorem dnsSkipName_of_liesAt {length : UInt8} {bytes : Bytes}
    (h : LiesAt payload offset (length :: bytes)) : dnsSkipName payload offset =
      if length = 0 then offset + 1
      else if length &&& 0xC0 = 0xC0 then offset + 2
      else dnsSkipName payload (offset + length.toNat + 1) := by
  have hlt : offset < payload.length := by
    have hle := h.length_le (List.cons_ne_nil _ _)
    rw [List.length_cons] at hle
    omega
  have hhead := h.getElem? (i := 0) (Nat.zero_lt_succ _)
  rw [Nat.add_zero, List.getElem?_eq_getElem hlt, List.getElem?_cons_zero] at hhead
  rw [dnsSkipName_of_lt hlt, Option.some.inj hhead]

theorem dnsSkipName_labels {labels : List DnsLabel}
    (h : LiesAt payload offset (encodeLabels labels)) :
    dnsSkipName payload offset = dnsSkipName payload (offset + (encodeLabels labels).length) := by
  induction labels generalizing offset with
  | nil => rfl
  | cons label labels ih =>
    rw [encodeLabels, List.flatMap_cons, liesAt_append] at h
    obtain ⟨hroot, hpointer, hlength⟩ := labelLength_plain label.2.1 label.2.2
    rw [dnsSkipName_of_liesAt h.1, if_neg hroot, if_neg hpointer, hlength, encodeLabels,
      List.flatMap_cons, List.length_append, ← Nat.add_assoc]
    exact ih h.2

/-- A name is passed whole, however many labels it has and whether or not it ends in a pointer. -/
theorem dnsSkipName_name {name : DnsName} (h : LiesAt payload offset name.encode) :
    dnsSkipName payload offset = offset + name.encode.length := by
  rw [DnsName.encode, liesAt_append] at h
  obtain ⟨hlabels, hlast⟩ := h
  rw [dnsSkipName_labels hlabels, DnsName.encode, List.length_append, ← Nat.add_assoc]
  cases hend : name.last with
  | root =>
    rw [hend] at hlast
    rw [dnsSkipName_of_liesAt hlast, if_pos rfl]
    rfl
  | pointer target =>
    rw [hend] at hlast
    have hbits : ∀ b : UInt8, (0xC0 : UInt8) ||| b ≠ 0 ∧ ((0xC0 : UInt8) ||| b) &&& 0xC0 = 0xC0 :=
      forall_byte (by decide +kernel)
    rw [dnsSkipName_of_liesAt hlast, if_neg (hbits _).1, if_pos (hbits _).2]
    rfl

theorem DnsName.encode_length_pos (name : DnsName) : 0 < name.encode.length := by
  rw [DnsName.encode, List.length_append]
  cases name.last <;> exact Nat.lt_of_lt_of_le (Nat.succ_pos _) (Nat.le_add_left _ _)

theorem dnsSkipQuestions_encode {questions : List DnsQuestion}
    (h : LiesAt payload offset (questions.flatMap DnsQuestion.encode)) :
    dnsSkipQuestions payload questions.length offset =
      offset + (questions.flatMap DnsQuestion.encode).length := by
  induction questions generalizing offset with
  | nil => rfl
  | cons question questions ih =>
    rw [List.flatMap_cons, liesAt_append] at h
    obtain ⟨hquestion, hrest⟩ := h
    have hfits := hquestion.length_le (List.ne_nil_of_length_pos (by
      rw [DnsQuestion.encode, List.length_append]
      have hpos := question.name.encode_length_pos
      omega))
    have hname := (liesAt_append.mp hquestion).1
    have hlength : question.encode.length = question.name.encode.length + 4 := by
      rw [DnsQuestion.encode, List.length_append]
      rfl
    rw [List.length_cons, dnsSkipQuestions, dnsSkipName_name hname, if_neg (by omega),
      List.flatMap_cons, List.length_append, ← Nat.add_assoc]
    rw [hlength, ← Nat.add_assoc] at hrest ⊢
    exact ih hrest

/-- The scan finds the first address of the records. -/
theorem dnsScanAnswers_encode {records : List DnsRecord}
    (h : LiesAt payload offset (records.flatMap DnsRecord.encode)) :
    dnsScanAnswers payload records.length offset = firstAddress records := by
  induction records generalizing offset with
  | nil => rfl
  | cons record records ih =>
    rw [List.flatMap_cons, liesAt_append] at h
    obtain ⟨hrecord, hrest⟩ := h
    have hlength : record.encode.length =
        record.name.encode.length + 10 + record.data.length := by
      simp only [DnsRecord.encode, List.length_append, netWriteBe16_length, netWriteBe32_length]
      omega
    have hpos := record.name.encode_length_pos
    have hfits := hrecord.length_le (List.ne_nil_of_length_pos (by omega))
    simp only [DnsRecord.encode, liesAt_append, netWriteBe16_length, netWriteBe32_length,
      Nat.add_assoc, Nat.reduceAdd] at hrecord
    obtain ⟨hname, htype, hclass, -, hcount, hdata⟩ := hrecord
    have hdataLength : (UInt16.ofNat record.data.length).toNat = record.data.length := by
      rw [UInt16.toNat_ofNat']
      exact Nat.mod_eq_of_lt record.data_lt
    rw [hlength] at hfits hrest
    rw [List.length_cons, dnsScanAnswers, if_neg (by omega), dnsSkipName_name hname]
    simp only [Nat.add_assoc, netReadBe16_of_liesAt htype,
      netReadBe16_of_liesAt hclass, netReadBe16_of_liesAt hcount, hdataLength]
    rw [if_neg (by omega), if_neg (by omega), firstAddress_cons]
    by_cases haddress : record.IsAddress
    · rw [if_pos haddress, if_pos (show _ ∧ _ ∧ _ from haddress),
        netReadBe32_of_liesAt hdata haddress.2.2]
    · rw [if_neg haddress, if_neg (show ¬ (_ ∧ _ ∧ _) from haddress)]
      rw [Nat.add_assoc] at hrest
      exact ih hrest

end Layout

/-- Where the parts of a message lie that the scan reads. -/
structure DnsMessage.Layout (message : DnsMessage) (payload : Bytes) : Prop where
  id : LiesAt payload 0 (netWriteBe16 message.id)
  flags : LiesAt payload 2 (netWriteBe16 message.flags)
  questionCount : LiesAt payload 4 (netWriteBe16 (UInt16.ofNat message.questions.length))
  answerCount : LiesAt payload 6 (netWriteBe16 (UInt16.ofNat message.answers.length))
  questions : LiesAt payload 12 (message.questions.flatMap DnsQuestion.encode)
  answers : LiesAt payload (12 + (message.questions.flatMap DnsQuestion.encode).length)
    (message.answers.flatMap DnsRecord.encode)

theorem DnsMessage.layout_of_liesAt {message : DnsMessage} {payload : Bytes}
    (hlies : LiesAt payload 0 message.encode) : message.Layout payload := by
  simp only [DnsMessage.encode, DnsMessage.header, liesAt_append, netWriteBe16_length,
    List.length_append, Nat.zero_add, Nat.reduceAdd] at hlies
  obtain ⟨⟨hid, hflags, hquestionCount, hanswerCount, -, -⟩, hquestions, hanswers, -⟩ := hlies
  exact ⟨hid, hflags, hquestionCount, hanswerCount, hquestions, hanswers⟩

theorem DnsMessage.layout (message : DnsMessage) : message.Layout message.encode :=
  layout_of_liesAt ⟨[], List.append_nil _⟩

/-- The scan of a well-formed message starts at the answers and knows their number. -/
theorem dnsAnswer_encode (message : DnsMessage) :
    dnsAnswer message.encode = firstAddress message.answers := by
  have hlayout := message.layout
  rw [dnsAnswer, netReadBe16_of_liesAt hlayout.questionCount,
    netReadBe16_of_liesAt hlayout.answerCount, UInt16.toNat_ofNat', UInt16.toNat_ofNat',
    Nat.mod_eq_of_lt message.questions_lt, Nat.mod_eq_of_lt message.answers_lt,
    dnsSkipQuestions_encode hlayout.questions]
  exact dnsScanAnswers_encode hlayout.answers

/-- Reading a reply: the scan of any datagram ends without a read outside the datagram, and the
scan of a well-formed message gives the address of the first address record of its answers. -/
theorem checkedAnswer_correct (queryId : UInt16) :
    (∀ payload, ∃ answer, checkedAnswer queryId payload = some answer) ∧
      ∀ message : DnsMessage, message.id = queryId → message.flags &&& 0x8000 ≠ 0 →
        checkedAnswer queryId message.encode = some (firstAddress message.answers) := by
  constructor
  · intro payload
    exact ⟨_, checkedAnswer_eq queryId payload⟩
  · intro message hid hreply
    have hlayout := message.layout
    have hlength : 12 ≤ message.encode.length := by
      rw [DnsMessage.encode, List.length_append]
      exact Nat.le_add_right 12 _
    have haccepts : 12 ≤ message.encode.length ∧ netReadBe16 message.encode 0 = queryId ∧
        netReadBe16 message.encode 2 &&& 0x8000 ≠ 0 := by
      rw [netReadBe16_of_liesAt hlayout.id, netReadBe16_of_liesAt hlayout.flags]
      exact ⟨hlength, hid, hreply⟩
    rw [checkedAnswer_eq, if_pos haccepts, dnsAnswer_encode]

/-- A reply with an alias and an address, both names of which point at the question. -/
def aliasReply : DnsMessage where
  id := 7
  flags := 0x8180
  questions := [⟨⟨[⟨snsxHost, by decide⟩], .root⟩, 1, 1⟩]
  answers := [⟨⟨[], .pointer 12⟩, 5, 1, 60, [0xC0, 12], by decide⟩,
    ⟨⟨[], .pointer 12⟩, 1, 1, 60, netWriteBe32 0x0A000250, by decide⟩]
  authorityCount := 0
  additionalCount := 0
  rest := []
  questions_lt := by decide
  answers_lt := by decide

theorem checkedAnswer_correct_alias : (∃ answer, checkedAnswer 7 [7, 7] = some answer) ∧
    checkedAnswer 7 aliasReply.encode = some (firstAddress aliasReply.answers) :=
  ⟨(checkedAnswer_correct 7).1 [7, 7],
    (checkedAnswer_correct 7).2 aliasReply rfl (by decide)⟩

example : firstAddress aliasReply.answers = some 0x0A000250 := by decide

end SnsxOS.Arm64
