import SnsxOS.Framework.Lines
import SnsxOS.Framework.Writer
import SnsxOS.Arm64.Net.DnsReply

/-!
# Building a DNS query

The query builder of `netstack_resolve_dns_name` as it fills its array of 512 bytes. The check
before each label keeps two bytes free, the end of the name and of the question takes five. The
length byte of a label takes any length, although the two upper bits mark a pointer.
-/

namespace SnsxOS.Arm64

open Framework

/-- The builder returns false, or writes behind its array. -/
inductive BuildFailure where
  | refused
  | overrun
  deriving DecidableEq

/-- What a write gives, where one behind the array counts as a failure. -/
def orOverrun {α : Type} : Option α → Except BuildFailure α
  | none => .error .overrun
  | some a => .ok a

/-- The loop over the labels of the host. -/
def dnsPutLabels (w : Writer) (cursor : Bytes) : Except BuildFailure Writer :=
  if cursor = [] then .ok w
  else
    let segment := cursor.takeWhile (· != 46)
    if segment.length = 0 ∨ 512 ≤ w.index + segment.length + 2 then .error .refused
    else
      match w.put (UInt8.ofNat segment.length :: segment) with
      | none => .error .overrun
      | some w => dnsPutLabels w (cursor.drop (segment.length + 1))
termination_by cursor.length
decreasing_by
  have hpos := List.length_pos_of_ne_nil ‹¬ cursor = []›
  rw [List.length_drop]
  omega

/-- The fields of the header that are not zero. -/
def dnsStoreHeader (queryId : UInt16) (payload : Bytes) : Option Bytes := do
  let payload ← store payload 0 (netWriteBe16 queryId)
  let payload ← store payload 2 (netWriteBe16 0x0100)
  store payload 4 (netWriteBe16 1)

/-- The end of the name, the type and the class of the question. -/
def dnsPutTrailer (w : Writer) : Option Writer := do
  let w ← w.put [0]
  let w ← w.put (netWriteBe16 1)
  w.put (netWriteBe16 1)

/-- The array after the builder and the length of the message. -/
def dnsBuildQuery (queryId : UInt16) (host : Bytes) : Except BuildFailure (Bytes × Nat) := do
  let payload ← orOverrun (dnsStoreHeader queryId (List.replicate 512 0))
  let w ← dnsPutLabels ⟨payload, 12⟩ host
  let w ← orOverrun (dnsPutTrailer w)
  return (w.cells, w.index)

/-! ## The labels of a host -/

/-- The labels between the dots. A dot at the end stands for the root and starts no label. -/
def hostLabels (host : Bytes) : List Bytes := linesOf 46 host

/-- The space that the labels take in a message. -/
def labelsSize (labels : List Bytes) : Nat := (labels.map fun label => label.length + 1).sum

/-- A label without a byte, or more bytes than the builder takes in. -/
def HostRefused (host : Bytes) : Prop := [] ∈ hostLabels host ∨ 499 ≤ labelsSize (hostLabels host)

instance : DecidablePred HostRefused := fun _ => inferInstanceAs (Decidable (_ ∨ _))

/-- The labels end to end, each behind a byte of its length. -/
def labelBytes (labels : List Bytes) : Bytes := labels.flatMap encodeLabel

theorem hostLabels_of_ne_nil {cursor : Bytes} (h : cursor ≠ []) :
    hostLabels cursor = cursor.takeWhile (· != 46) ::
      hostLabels (cursor.drop ((cursor.takeWhile (· != 46)).length + 1)) :=
  linesOf_of_ne_nil h

theorem labelsSize_cons (label : Bytes) (labels : List Bytes) :
    labelsSize (label :: labels) = label.length + 1 + labelsSize labels := by
  rw [labelsSize, List.map_cons, List.sum_cons, labelsSize]

theorem labelBytes_length (labels : List Bytes) :
    (labelBytes labels).length = labelsSize labels := by
  induction labels with
  | nil => rfl
  | cons label labels ih =>
    rw [labelBytes] at ih
    rw [labelBytes, List.flatMap_cons, List.length_append, ih, labelsSize_cons, encodeLabel,
      List.length_cons]

/-- The loop takes in the labels one by one, as long as none is empty and the next one fits. -/
theorem dnsAppendLabels_eq (text host : Bytes) (htext : text.length ≤ 510) :
    dnsAppendLabels text host =
      if [] ∈ hostLabels host ∨ 511 ≤ text.length + labelsSize (hostLabels host) then none
      else some (text ++ labelBytes (hostLabels host)) := by
  fun_induction dnsAppendLabels text host with
  | case1 text =>
    have hfits : ¬ 511 ≤ text.length := by omega
    simp [hostLabels, linesOf, labelsSize, labelBytes, hfits]
  | case2 text cursor hcursor segment =>
    rename_i hrefused
    rw [if_pos]
    rw [hostLabels_of_ne_nil hcursor, labelsSize_cons]
    rcases hrefused with hempty | hlong
    · exact .inl (List.mem_cons.mpr (.inl (List.eq_nil_of_length_eq_zero hempty).symm))
    · exact .inr (show 511 ≤ text.length + (segment.length + 1 + labelsSize _) by omega)
  | case3 text cursor hcursor segment hfits =>
    rename_i ih
    have hindex : ¬ 512 ≤ text.length + segment.length + 2 := fun h => hfits (.inr h)
    have hnonempty : [] ≠ segment := fun h => hfits (.inl (h ▸ rfl))
    have hlength : (text ++ UInt8.ofNat segment.length :: segment).length =
        text.length + (segment.length + 1) := by
      rw [List.length_append, List.length_cons]
    rw [ih (by rw [hlength]; omega), hlength, hostLabels_of_ne_nil hcursor, labelsSize_cons,
      labelBytes, labelBytes, List.flatMap_cons, List.append_assoc, Nat.add_assoc]
    change _ = if [] ∈ segment :: _ ∨ 511 ≤ text.length + (segment.length + 1 + labelsSize _) then
      none else _
    simp only [List.mem_cons, hnonempty, false_or, Nat.add_assoc]
    rfl

/-- The labels are written into the array, never behind its end. -/
theorem dnsPutLabels_eq (text host : Bytes) :
    dnsPutLabels (Writer.behind 512 text) host =
      match dnsAppendLabels text host with
      | none => .error .refused
      | some text => .ok (Writer.behind 512 text) := by
  fun_induction dnsAppendLabels text host with
  | case1 text => rw [dnsPutLabels, if_pos rfl]
  | case2 text cursor hcursor segment =>
    rename_i hrefused
    rw [dnsPutLabels, if_neg hcursor]
    exact if_pos hrefused
  | case3 text cursor hcursor segment hfits =>
    rename_i ih
    have hindex : ¬ 512 ≤ text.length + segment.length + 2 := fun h => hfits (.inr h)
    have hroom : text.length + (UInt8.ofNat segment.length :: segment).length ≤ 512 := by
      rw [List.length_cons]
      omega
    have hput := Writer.put_behind hroom
    rw [dnsPutLabels, if_neg hcursor]
    refine (if_neg hfits).trans ?_
    change (match (Writer.behind 512 text).put (UInt8.ofNat segment.length :: segment) with
      | none => Except.error BuildFailure.overrun
      | some w => dnsPutLabels w (cursor.drop (segment.length + 1))) = _
    rw [hput]
    exact ih

/-- The header of a query: one question, recursion desired. -/
def dnsHeader (queryId : UInt16) : Bytes :=
  netWriteBe16 queryId ++ netWriteBe16 0x0100 ++ netWriteBe16 1 ++ List.replicate 6 0

/-- The message of a query. -/
def dnsQueryMessage (queryId : UInt16) (host : Bytes) : Bytes :=
  dnsHeader queryId ++ labelBytes (hostLabels host) ++ [0] ++ netWriteBe16 1 ++ netWriteBe16 1

theorem dnsHeader_length (queryId : UInt16) : (dnsHeader queryId).length = 12 := rfl

theorem dnsQueryMessage_length (queryId : UInt16) (host : Bytes) :
    (dnsQueryMessage queryId host).length = 17 + labelsSize (hostLabels host) := by
  simp only [dnsQueryMessage, List.length_append, dnsHeader_length, netWriteBe16_length,
    labelBytes_length, List.length_cons, List.length_nil]
  omega

theorem dnsStoreHeader_eq (queryId : UInt16) :
    dnsStoreHeader queryId (List.replicate 512 0) = some (padded 512 (dnsHeader queryId)) := by
  have hword := netWriteBe16_length
  rw [dnsStoreHeader, ← padded_nil, store_padded (Nat.zero_le _) (by simp [hword]),
    Option.bind_eq_bind, Option.bind_some, store_padded (by simp [hword]) (by simp [hword]),
    Option.bind_some, store_padded (by simp [hword]) (by simp [hword]), dnsHeader,
    padded_replicate (by simp [hword])]
  rfl

theorem dnsPutTrailer_eq {text : Bytes} (htext : text.length + 5 ≤ 512) :
    dnsPutTrailer (Writer.behind 512 text) =
      some (Writer.behind 512 (text ++ [0] ++ netWriteBe16 1 ++ netWriteBe16 1)) := by
  have hword := netWriteBe16_length
  rw [dnsPutTrailer, Writer.put_behind (by simp; omega), Option.bind_eq_bind, Option.bind_some,
    Writer.put_behind (by simp [hword]; omega), Option.bind_some,
    Writer.put_behind (by simp [hword]; omega)]

theorem dnsPutTrailer_of_lt {text : Bytes} (htext : text.length < 512)
    (hover : 512 < text.length + 5) : dnsPutTrailer (Writer.behind 512 text) = none := by
  have hword := netWriteBe16_length
  rw [dnsPutTrailer, Writer.put_behind (by simp; omega), Option.bind_eq_bind, Option.bind_some]
  -- either the type or the class runs over the end
  by_cases htype : text.length + 3 ≤ 512
  · rw [Writer.put_behind (by simp [hword]; omega), Option.bind_some,
      Writer.put_behind_of_lt (by simp [hword]; omega) (by simp [hword]; omega)]
  · rw [Writer.put_behind_of_lt (by simp; omega) (by simp [hword]; omega), Option.bind_none]

/-- What the builder does with every host: the five bytes behind the labels run over the end of
the array when the labels take 496 to 498 bytes. -/
theorem dnsBuildQuery_eq (queryId : UInt16) (host : Bytes) :
    dnsBuildQuery queryId host =
      if HostRefused host then .error .refused
      else if 496 ≤ labelsSize (hostLabels host) then .error .overrun
      else .ok (padded 512 (dnsQueryMessage queryId host),
        (dnsQueryMessage queryId host).length) := by
  have hlength := dnsHeader_length queryId
  have hsize := labelBytes_length (hostLabels host)
  have hlabels := dnsPutLabels_eq (dnsHeader queryId) host
  have hrefused : ([] ∈ hostLabels host ∨
      511 ≤ (dnsHeader queryId).length + labelsSize (hostLabels host)) ↔ HostRefused host := by
    rw [HostRefused, hlength]
    exact or_congr Iff.rfl ⟨fun h => by omega, fun h => by omega⟩
  rw [dnsAppendLabels_eq _ host (by omega)] at hlabels
  simp only [hrefused] at hlabels
  rw [dnsBuildQuery, dnsStoreHeader_eq]
  change (dnsPutLabels (Writer.behind 512 (dnsHeader queryId)) host).bind (fun w =>
    (orOverrun (dnsPutTrailer w)).bind fun w => .ok (w.cells, w.index)) = _
  rw [hlabels]
  by_cases hhost : HostRefused host
  · rw [if_pos hhost, if_pos hhost]
    rfl
  have hfits : ¬ 499 ≤ labelsSize (hostLabels host) := fun h => hhost (.inr h)
  rw [if_neg hhost, if_neg hhost]
  change (orOverrun (dnsPutTrailer (Writer.behind 512 _))).bind _ = _
  split
  · rw [dnsPutTrailer_of_lt (by rw [List.length_append]; omega)
      (by rw [List.length_append]; omega)]
    rfl
  · rw [dnsPutTrailer_eq (by rw [List.length_append]; omega)]
    rfl

/-- The query of the resolver is the message of the builder, wherever that does not overrun. -/
theorem dnsQuery_eq_message (queryId : UInt16) (host : Bytes) :
    dnsQuery queryId host =
      if HostRefused host then none else some (dnsQueryMessage queryId host) := by
  have hlabels := dnsAppendLabels_eq (List.replicate 12 0) host (by decide)
  have hrefused : ([] ∈ hostLabels host ∨ 511 ≤ (List.replicate 12 (0 : UInt8)).length +
      labelsSize (hostLabels host)) ↔ HostRefused host := by
    rw [HostRefused, List.length_replicate]
    exact or_congr Iff.rfl ⟨fun h => by omega, fun h => by omega⟩
  simp only [hrefused] at hlabels
  rw [dnsQuery, dnsQueryName, hlabels]
  split
  · rfl
  · rw [Option.map_some, Option.map_some, List.drop_left' List.length_replicate]
    simp only [dnsQueryMessage, dnsHeader, List.append_assoc]

/-! ## Reading the name -/

/-- The labels of a name and what follows it, by the rules for labels: a length byte from 1 to 63
and that many bytes, until the root. -/
def decodeName : Bytes → Option (List Bytes × Bytes)
  | [] => none
  | length :: bytes =>
      if length = 0 then some ([], bytes)
      else if 63 < length.toNat ∨ bytes.length < length.toNat then none
      else (decodeName (bytes.drop length.toNat)).map fun name =>
        (bytes.take length.toNat :: name.1, name.2)
termination_by bytes => bytes.length
decreasing_by
  rw [List.length_drop, List.length_cons]
  omega

theorem decodeName_labelBytes {labels : List Bytes} (rest : Bytes)
    (h : ∀ label ∈ labels, 0 < label.length ∧ label.length ≤ 63) :
    decodeName (labelBytes labels ++ 0 :: rest) = some (labels, rest) := by
  induction labels with
  | nil => rw [labelBytes, List.flatMap_nil, List.nil_append, decodeName, if_pos rfl]
  | cons label labels ih =>
    obtain ⟨hpos, hle⟩ := h label List.mem_cons_self
    obtain ⟨hroot, -, hlength⟩ := labelLength_plain hpos hle
    have hrest := ih fun other hother => h other (List.mem_cons_of_mem label hother)
    rw [labelBytes] at hrest
    rw [labelBytes, List.flatMap_cons, encodeLabel, List.cons_append, List.cons_append, decodeName,
      if_neg hroot, hlength, if_neg (by simp; omega), List.append_assoc, List.drop_left,
      List.take_left, hrest, Option.map_some]

/-- Every label that is read has a proper length. -/
theorem decodeName_label {bytes rest : Bytes} {labels : List Bytes}
    (h : decodeName bytes = some (labels, rest)) :
    ∀ label ∈ labels, 0 < label.length ∧ label.length ≤ 63 := by
  fun_induction decodeName bytes generalizing labels with
  | case1 => cases h
  | case2 bytes =>
    cases h
    intro label hlabel
    cases hlabel
  | case3 length bytes hroot hbad => cases h
  | case4 length bytes hroot hgood ih =>
    obtain ⟨name, hname, hlabels⟩ := Option.map_eq_some_iff.mp h
    cases hlabels
    have hpos : 0 < length.toNat := Nat.pos_of_ne_zero fun hzero =>
      hroot (UInt8.toNat_inj.mp hzero)
    intro label hlabel
    rcases List.mem_cons.mp hlabel with rfl | hrest
    · rw [List.length_take]
      omega
    · exact ih hname label hrest

/-! ## Queries that name the host -/

/-- The builder returns false, or it stays inside its array and the question of its message names
the labels of the host, with type A and class IN. -/
def QueriesHost (queryId : UInt16) (host : Bytes) : Prop :=
  dnsBuildQuery queryId host ≠ .error .overrun ∧
    ∀ payload length, dnsBuildQuery queryId host = .ok (payload, length) →
      payload.length = 512 ∧ length ≤ 512 ∧ decodeName ((payload.take length).drop 12) =
        some (hostLabels host, netWriteBe16 1 ++ netWriteBe16 1)

/-- The question of a message that the builder makes begins behind the header. -/
theorem dnsQueryMessage_question (queryId : UInt16) (host : Bytes) :
    ((padded 512 (dnsQueryMessage queryId host)).take
      (dnsQueryMessage queryId host).length).drop 12 =
        labelBytes (hostLabels host) ++ 0 :: (netWriteBe16 1 ++ netWriteBe16 1) := by
  rw [take_padded, dnsQueryMessage]
  simp only [List.append_assoc]
  rw [List.drop_left' (dnsHeader_length queryId)]
  rfl

/-- A query is in order exactly when the builder refuses the host, or no label is longer than 63
bytes and all of them leave room for what follows. -/
theorem dnsBuildQuery_queriesHost_iff (queryId : UInt16) (host : Bytes) :
    QueriesHost queryId host ↔ HostRefused host ∨
      (labelsSize (hostLabels host) ≤ 495 ∧ ∀ label ∈ hostLabels host, label.length ≤ 63) := by
  rw [QueriesHost, dnsBuildQuery_eq]
  by_cases hhost : HostRefused host
  · simp [hhost]
  rw [if_neg hhost]
  by_cases hover : 496 ≤ labelsSize (hostLabels host)
  · rw [if_pos hover]
    constructor
    · intro h
      exact absurd rfl h.1
    · intro h
      have hsize := (h.resolve_left hhost).1
      omega
  rw [if_neg hover]
  have hlength := dnsQueryMessage_length queryId host
  have hquestion := dnsQueryMessage_question queryId host
  constructor
  · intro h
    have hdecoded := (h.2 _ _ rfl).2.2
    rw [hquestion] at hdecoded
    exact .inr ⟨by omega, fun label hlabel => (decodeName_label hdecoded label hlabel).2⟩
  · intro h
    have hlabels := (h.resolve_left hhost).2
    constructor
    · intro hc
      cases hc
    · intro payload length hbuilt
      obtain ⟨rfl, rfl⟩ := Prod.mk.inj (Except.ok.inj hbuilt)
      refine ⟨padded_length (by omega), by omega, ?_⟩
      rw [hquestion]
      apply decodeName_labelBytes
      intro label hlabel
      refine ⟨List.length_pos_of_ne_nil ?_, hlabels label hlabel⟩
      intro hempty
      exact hhost (.inl (hempty ▸ hlabel))

/-- A host whose only label has 64 letters. -/
def longHost : Bytes := List.replicate 64 97

/-- The byte before a label of 64 letters is not the length of a label. -/
theorem not_dnsBuildQuery_queriesHost : ¬ ∀ queryId host, QueriesHost queryId host := by
  intro h
  have hbuilt := dnsBuildQuery_eq 7 longHost
  rw [if_neg (by decide), if_neg (by decide)] at hbuilt
  have hdecoded := ((h 7 longHost).2 _ _ hbuilt).2.2
  rw [dnsQueryMessage_question] at hdecoded
  exact absurd (decodeName_label hdecoded longHost (by decide)).2 (by decide)

end SnsxOS.Arm64
