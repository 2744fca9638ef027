import SnsxOS.Arm64.Net.Dns
import SnsxOS.Lib.Decimal
import SnsxOS.Lib.Strings

/-!
# Addresses as text

`net_ip_to_string` prints an address and `net_parse_ipv4_text` reads one. The parser accepts
exactly four numbers up to 255 between single dots. Its arithmetic stays within 32 bits and its
stores within the array of four parts.
-/

namespace SnsxOS.Arm64

open Framework

def netIpToString (ip : UInt32) (limit : Nat) : Bytes :=
  let output := strcopyLimit (u32ToDec ((ip >>> 24) &&& 0xFF)) limit
  let output := if output.length + 2 < limit then output ++ [46] else output
  let part := u32ToDec ((ip >>> 16) &&& 0xFF)
  let output := if output.length + part.length + 2 < limit then output ++ part ++ [46] else output
  let part := u32ToDec ((ip >>> 8) &&& 0xFF)
  let output := if output.length + part.length + 2 < limit then output ++ part ++ [46] else output
  let part := u32ToDec (ip &&& 0xFF)
  if output.length + part.length + 1 < limit then output ++ part else output

/-! ## The language of the parser -/

/-- The text of a part of an address. -/
structure Ipv4Part (text : Bytes) : Prop where
  ne_nil : text ≠ []
  digits : ∀ ch ∈ text, isdigit ch = true
  value_le : decimalValue text ≤ 255

/-- Numbers up to 255 between single dots. -/
inductive ReadsParts : Bytes → List Nat → Prop where
  | last {run : Bytes} (hrun : Ipv4Part run) : ReadsParts run [decimalValue run]
  | next {run text : Bytes} {values : List Nat} (hrun : Ipv4Part run)
      (htext : ReadsParts text values) :
      ReadsParts (run ++ 46 :: text) (decimalValue run :: values)

/-- Four such numbers, the first one the most significant byte of the address. -/
def WritesIpv4 (text : Bytes) (ip : UInt32) : Prop :=
  ∃ a b c d, ReadsParts text [a, b, c, d] ∧
    ip.toNat = a * 2 ^ 24 + b * 2 ^ 16 + c * 2 ^ 8 + d

section Reads

variable {run rest text : Bytes} {values : List Nat} {c : UInt8}

theorem ReadsParts.ne_nil (h : ReadsParts text values) : values ≠ [] := by
  cases h with
  | last hrun => exact List.cons_ne_nil _ _
  | next hrun htext => exact List.cons_ne_nil _ _

theorem ReadsParts.le (h : ReadsParts text values) : ∀ value ∈ values, value ≤ 255 := by
  induction h with
  | last hrun => simpa using hrun.value_le
  | next hrun htext ih =>
    intro value hvalue
    rcases List.mem_cons.mp hvalue with rfl | hvalue
    · exact hrun.value_le
    · exact ih value hvalue

/-- Digits up to the end of the text are its only part. -/
theorem readsParts_digits (hrun : ∀ ch ∈ run, isdigit ch = true) :
    ReadsParts run values ↔ Ipv4Part run ∧ values = [decimalValue run] := by
  constructor
  · intro h
    cases h with
    | last hpart => exact ⟨hpart, rfl⟩
    | next hpart htext =>
      have hdot := hrun 46 (by simp)
      cases hdot
  · rintro ⟨hpart, rfl⟩
    exact .last hpart

/-- The first part ends at the first character that is no digit. -/
theorem readsParts_append (hrun : ∀ ch ∈ run, isdigit ch = true) (hc : ¬ isdigit c = true) :
    ReadsParts (run ++ c :: rest) values ↔ Ipv4Part run ∧ c = 46 ∧
      ∃ later, ReadsParts rest later ∧ values = decimalValue run :: later := by
  constructor
  · intro h
    generalize htext : run ++ c :: rest = text at h
    cases h with
    | last hpart =>
      subst htext
      exact absurd (hpart.digits c (by simp)) hc
    | @next first text later hpart hlater =>
      have hfirst : run = first := by
        have htake : (run ++ c :: rest).takeWhile isdigit = run := 
          takeWhile_append_stop hrun hc rest
        rw [← htake, htext, takeWhile_append_stop hpart.digits (by decide)]
      subst hfirst
      have htail := List.append_cancel_left htext
      obtain ⟨rfl, rfl⟩ := List.cons_eq_cons.mp htail
      exact ⟨hpart, rfl, later, hlater, rfl⟩
  · rintro ⟨hpart, rfl, later, hlater, rfl⟩
    exact .next hpart hlater

end Reads

/-! ## The parser reads the language -/

section Loop

variable {run rest text : Bytes} {parts : List UInt32} {value : UInt32}

/-- The number of a run of digits behind others. -/
def decimalFrom (n : Nat) (text : Bytes) : Nat :=
  text.foldl (fun n ch => n * 10 + (ch.toNat - 48)) n

theorem le_decimalFrom (n : Nat) (text : Bytes) : n ≤ decimalFrom n text := by
  induction text generalizing n with
  | nil => exact le_rfl
  | cons ch text ih =>
    have hnext : n ≤ n * 10 + (ch.toNat - 48) := by omega
    exact hnext.trans (ih _)

theorem digit_toNat {ch : UInt8} (h : isdigit ch = true) : (ch - 48).toNat = ch.toNat - 48 ∧
    ch.toNat - 48 ≤ 9 := by
  rw [isdigit, Bool.and_eq_true, decide_eq_true_eq, decide_eq_true_eq, UInt8.le_iff_toNat_le,
    UInt8.le_iff_toNat_le] at h
  have hlow : (48 : UInt8) ≤ ch := UInt8.le_iff_toNat_le.mpr h.1
  have hhigh : ch.toNat ≤ 57 := h.2
  exact ⟨UInt8.toNat_sub_of_le _ _ hlow, by omega⟩

/-- A digit behind a part of the array does not leave 32 bits. -/
theorem nextValue_toNat {ch : UInt8} (h : isdigit ch = true) (hvalue : value.toNat ≤ 255) :
    (value * 10 + (ch - 48).toUInt32).toNat = value.toNat * 10 + (ch.toNat - 48) := by
  obtain ⟨hdigit, hle⟩ := digit_toNat h
  rw [UInt32.toNat_add, UInt32.toNat_mul, UInt8.toNat_toUInt32, hdigit]
  have hten : (10 : UInt32).toNat = 10 := rfl
  rw [hten]
  omega

theorem ipv4TextLoop_digits (hrun : ∀ ch ∈ run, isdigit ch = true) (hvalue : value.toNat ≤ 255)
    (hasDigit : Bool) (rest : Bytes) :
    ipv4TextLoop parts value hasDigit (run ++ rest) =
      if decimalFrom value.toNat run ≤ 255 then
        ipv4TextLoop parts (UInt32.ofNat (decimalFrom value.toNat run)) (hasDigit || !run.isEmpty) rest
      else none := by
  induction run generalizing value hasDigit with
  | nil =>
    rw [List.nil_append, decimalFrom, List.foldl_nil, if_pos hvalue, UInt32.ofNat_toNat]
    simp
  | cons ch run ih =>
    have hch := hrun ch List.mem_cons_self
    have hnext := nextValue_toNat hch hvalue
    rw [List.cons_append, ipv4TextLoop, if_pos hch]
    by_cases hlarge : 255 < value * 10 + (ch - 48).toUInt32
    · have hnat : 255 < (value * 10 + (ch - 48).toUInt32).toNat := UInt32.lt_iff_toNat_lt.mp hlarge
      have hle := le_decimalFrom (value.toNat * 10 + (ch.toNat - 48)) run
      rw [if_pos hlarge, if_neg]
      rw [decimalFrom, List.foldl_cons]
      rw [decimalFrom] at hle
      omega
    · have hnat : (value * 10 + (ch - 48).toUInt32).toNat ≤ 255 := by
        rw [UInt32.lt_iff_toNat_lt] at hlarge
        exact Nat.le_of_not_lt hlarge
      rw [if_neg hlarge, ih (fun c hc => hrun c (List.mem_cons_of_mem ch hc)) hnat, hnext]
      simp [decimalFrom]

theorem ipv4Part_iff (hrun : ∀ ch ∈ run, isdigit ch = true) :
    Ipv4Part run ↔ run ≠ [] ∧ decimalFrom 0 run ≤ 255 :=
  ⟨fun h => ⟨h.ne_nil, h.value_le⟩, fun h => ⟨h.1, hrun, h.2⟩⟩

/-- From the start of a part on, the loop comes to its end with the parts that it has and those of
the text. -/
theorem ipv4TextLoop_eq_some_iff {read : List UInt32} {last : UInt32} (hread : read.length ≤ 4) :
    ipv4TextLoop parts 0 false text = some (read, last, true) ↔
      ∃ values, ReadsParts text values ∧ parts ++ values.map UInt32.ofNat = read ++ [last] := by
  induction hlength : text.length using Nat.strong_induction_on generalizing text parts with
  | _ n ih =>
    obtain ⟨run, rest, rfl, hrun, hrest⟩ : ∃ run rest, text = run ++ rest ∧
        (∀ ch ∈ run, isdigit ch = true) ∧ ∀ ch ∈ rest.head?, ¬ isdigit ch = true := by
      refine ⟨text.takeWhile isdigit, text.dropWhile isdigit, List.takeWhile_append_dropWhile.symm,
        fun ch hch => List.mem_takeWhile_imp hch, fun ch hch => ?_⟩
      have hhead := List.head?_dropWhile_not isdigit text
      rw [hch] at hhead
      simpa using hhead
    have hpart := ipv4Part_iff hrun
    rw [ipv4TextLoop_digits hrun (by decide)]
    have hzero : (0 : UInt32).toNat = 0 := rfl
    rw [hzero, Bool.false_or]
    by_cases hrange : decimalFrom 0 run ≤ 255
    · rw [if_pos hrange]
      cases rest with
      | nil =>
        rw [List.append_nil, ipv4TextLoop]
        simp only [readsParts_digits hrun, hpart, hrange, and_true]
        cases run with
        | nil => simp
        | cons ch run =>
          simp only [List.isEmpty_cons, Bool.not_false, Option.some.injEq, Prod.mk.injEq, and_true]
          constructor
          · rintro ⟨rfl, rfl⟩
            exact ⟨_, ⟨List.cons_ne_nil ch run, rfl⟩, rfl⟩
          · rintro ⟨values, ⟨-, rfl⟩, hparts⟩
            obtain ⟨hread, hlast⟩ := List.append_inj' hparts rfl
            exact ⟨hread, List.singleton_inj.mp hlast⟩
      | cons c rest =>
        have hc := hrest c rfl
        rw [ipv4TextLoop, if_neg hc]
        simp only [readsParts_append hrun hc, hpart, hrange, and_true]
        by_cases hdot : c = 46
        · rw [if_pos hdot]
          by_cases hstop : (!run.isEmpty) = false ∨ 4 ≤ parts.length
          · rw [if_pos hstop]
            simp only [reduceCtorEq, false_iff]
            rintro ⟨values, ⟨hne, -, later, hlater, rfl⟩, hparts⟩
            have hlater := List.length_pos_of_ne_nil hlater.ne_nil
            have hcount := congrArg List.length hparts
            simp only [List.length_append, List.length_map, List.length_cons, List.length_nil]
              at hcount
            rcases hstop with hempty | hfull
            · exact hne (by simpa using hempty)
            · omega
          · rw [not_or] at hstop
            have hne : run ≠ [] := by simpa using hstop.1
            have hshorter : rest.length < n := by
              rw [← hlength, List.length_append, List.length_cons]
              omega
            rw [if_neg (not_or.mpr hstop), ih rest.length hshorter rfl]
            constructor
            · rintro ⟨later, hlater, hparts⟩
              refine ⟨_, ⟨hne, hdot, later, hlater, rfl⟩, ?_⟩
              rw [List.map_cons, ← hparts, List.append_assoc]
              rfl
            · rintro ⟨values, ⟨-, -, later, hlater, rfl⟩, hparts⟩
              refine ⟨later, hlater, ?_⟩
              rw [← hparts, List.map_cons, List.append_assoc]
              rfl
        · rw [if_neg hdot]
          simp [hdot]
    · rw [if_neg hrange]
      cases rest with
      | nil => simp [readsParts_digits hrun, hpart, hrange]
      | cons c rest => simp [readsParts_append hrun (hrest c rfl), hpart, hrange]

theorem netParseIpv4Text_loop {ip : UInt32} : netParseIpv4Text text = some ip ↔
    ∃ a b c d : UInt32, ipv4TextLoop [] 0 false text = some ([a, b, c], d, true) ∧
      ip = netIpMake a.toUInt8 b.toUInt8 c.toUInt8 d.toUInt8 := by
  rw [netParseIpv4Text]
  constructor
  · intro h
    split at h
    · rename_i a b c d hloop
      exact ⟨a, b, c, d, hloop, (Option.some.inj h).symm⟩
    · cases h
  · rintro ⟨a, b, c, d, hloop, rfl⟩
    rw [hloop]

theorem toNat_netIpMake (a b c d : UInt8) : (netIpMake a b c d).toNat =
    a.toNat * 2 ^ 24 + b.toNat * 2 ^ 16 + c.toNat * 2 ^ 8 + d.toNat := by
  have ha := a.toNat_lt
  have hb := b.toNat_lt
  have hc := c.toNat_lt
  have hd := d.toNat_lt
  have hor : ∀ (x y i : Nat), y < 2 ^ i → x * 2 ^ i ||| y = x * 2 ^ i + y := by
    intro x y i hy
    rw [Nat.mul_comm, Nat.two_pow_add_eq_or_of_lt hy]
  have hshift : ∀ (x : UInt8) (i : Nat), i ≤ 24 →
      (x.toUInt32 <<< UInt32.ofNat i).toNat = x.toNat * 2 ^ i := by
    intro x i hi
    have hx := x.toNat_lt
    have hpow : 2 ^ i ≤ 2 ^ 24 := Nat.pow_le_pow_right (by decide) hi
    have hmul : x.toNat * 2 ^ i ≤ 255 * 2 ^ 24 := Nat.mul_le_mul (by omega) hpow
    rw [UInt32.toNat_shiftLeft, UInt8.toNat_toUInt32, UInt32.toNat_ofNat', Nat.shiftLeft_eq,
      Nat.mod_eq_of_lt (a := i) (by omega), Nat.mod_eq_of_lt (a := i) (by omega),
      Nat.mod_eq_of_lt (by omega)]
  rw [netIpMake, UInt32.toNat_or, UInt32.toNat_or, UInt32.toNat_or]
  have h24 := hshift a 24 (by decide)
  have h16 := hshift b 16 (by decide)
  have h8 := hshift c 8 (by decide)
  simp only [UInt32.reduceOfNat] at h24 h16 h8
  rw [h24, h16, h8, UInt8.toNat_toUInt32, Nat.or_assoc, Nat.or_assoc, hor _ _ 8 (by omega),
    hor _ _ 16 (by omega), hor _ _ 24 (by omega)]
  omega

theorem toNat_part {n : Nat} (h : n ≤ 255) : (UInt32.ofNat n).toUInt8.toNat = n := by
  rw [UInt32.toNat_toUInt8, UInt32.toNat_ofNat', Nat.mod_eq_of_lt (by omega),
    Nat.mod_eq_of_lt (by omega)]

/-- The parser reads exactly the texts of addresses. -/
theorem netParseIpv4Text_eq_some_iff {ip : UInt32} :
    netParseIpv4Text text = some ip ↔ WritesIpv4 text ip := by
  have hmake : ∀ a b c d : Nat, ReadsParts text [a, b, c, d] →
      (netIpMake (UInt32.ofNat a).toUInt8 (UInt32.ofNat b).toUInt8 (UInt32.ofNat c).toUInt8
        (UInt32.ofNat d).toUInt8).toNat = a * 2 ^ 24 + b * 2 ^ 16 + c * 2 ^ 8 + d := by
    intro a b c d hreads
    have hle := hreads.le
    rw [toNat_netIpMake, toNat_part (hle a (by simp)), toNat_part (hle b (by simp)),
      toNat_part (hle c (by simp)), toNat_part (hle d (by simp))]
  rw [netParseIpv4Text_loop]
  constructor
  · rintro ⟨a, b, c, d, hloop, rfl⟩
    rw [ipv4TextLoop_eq_some_iff (by simp)] at hloop
    obtain ⟨values, hreads, hparts⟩ := hloop
    match values, hparts with
    | [a, b, c, d], rfl => exact ⟨a, b, c, d, hreads, hmake a b c d hreads⟩
  · rintro ⟨a, b, c, d, hreads, hip⟩
    refine ⟨_, _, _, _, (ipv4TextLoop_eq_some_iff (by simp)).mpr ⟨_, hreads, rfl⟩, ?_⟩
    rw [← UInt32.toNat_inj, hip, hmake a b c d hreads]

end Loop

/-! ## The array of parts -/

/-- `parts[count] = value`, where the array has the place. -/
def storePart (parts : List UInt32) (count : Nat) (value : UInt32) : Option (List UInt32) :=
  if count < parts.length then some (parts.set count value) else none

/-- `value * 10u + (uint32_t)(*text - '0')`, where it does not leave 32 bits. -/
def nextValue (value : UInt32) (ch : UInt8) : Option UInt32 :=
  if value.toNat * 10 + (ch.toNat - 48) < 2 ^ 32 then some (value * 10 + (ch - 48).toUInt32)
  else none

/-- The loop and what follows it with the array and its counter. There is no result where a store
misses the array or a number leaves 32 bits. -/
def checkedIpv4Loop (parts : List UInt32) (count : Nat) (value : UInt32) (hasDigit : Bool) :
    Bytes → Option (Option UInt32)
  | [] =>
      if hasDigit = false ∨ count ≠ 3 then some none
      else (storePart parts count value).map fun
        | [a, b, c, d] => some (netIpMake a.toUInt8 b.toUInt8 c.toUInt8 d.toUInt8)
        | _ => none
  | ch :: text =>
      if isdigit ch then
        (nextValue value ch).bind fun value =>
          if 255 < value then some none else checkedIpv4Loop parts count value true text
      else if ch = 46 then
        if hasDigit = false ∨ 4 ≤ count then some none
        else (storePart parts count value).bind fun parts =>
          checkedIpv4Loop parts (count + 1) 0 false text
      else some none

/-- `net_parse_ipv4_text` with what its array holds at the start. -/
def checkedParseIpv4Text (parts : Vector UInt32 4) (text : Bytes) : Option (Option UInt32) :=
  checkedIpv4Loop parts.toList 0 0 false text

section Checked

variable {parts : List UInt32} {count : Nat} {value : UInt32}

/-- The address of the parts that the loop comes to its end with. -/
def ipv4OfLoop : Option (List UInt32 × UInt32 × Bool) → Option UInt32
  | some ([a, b, c], d, true) =>
      some (netIpMake a.toUInt8 b.toUInt8 c.toUInt8 d.toUInt8)
  | _ => none

theorem take_set_self {α : Type*} {l : List α} {n : Nat} (h : n < l.length) (a : α) :
    (l.set n a).take (n + 1) = l.take n ++ [a] := by
  rw [List.set_eq_take_append_cons_drop, if_pos h, List.take_append, List.take_take,
    List.length_take]
  simp [Nat.min_eq_left h.le]

/-- No number leaves 32 bits and no store misses the array. -/
theorem checkedIpv4Loop_eq (text : Bytes) (hparts : parts.length = 4) (hcount : count ≤ 4)
    (hvalue : value.toNat ≤ 255) (hasDigit : Bool) :
    checkedIpv4Loop parts count value hasDigit text =
      some (ipv4OfLoop (ipv4TextLoop (parts.take count) value hasDigit text)) := by
  induction text generalizing parts count value hasDigit with
  | nil =>
    rw [checkedIpv4Loop, ipv4TextLoop]
    match parts, hparts with
    | [a, b, c, d], _ =>
      cases hasDigit with
      | false => interval_cases count <;> rfl
      | true => interval_cases count <;> rfl
  | cons ch text ih =>
    rw [checkedIpv4Loop, ipv4TextLoop]
    by_cases hch : isdigit ch = true
    · obtain ⟨-, hdigit⟩ := digit_toNat hch
      rw [if_pos hch, if_pos hch, nextValue, if_pos (by omega), Option.bind_some]
      by_cases hlarge : 255 < value * 10 + (ch - 48).toUInt32
      · rw [if_pos hlarge, if_pos hlarge]
        rfl
      · have hnat : (value * 10 + (ch - 48).toUInt32).toNat ≤ 255 := by
          rw [UInt32.lt_iff_toNat_lt] at hlarge
          exact Nat.le_of_not_lt hlarge
        rw [if_neg hlarge, if_neg hlarge, ih hparts hcount hnat]
    · rw [if_neg hch, if_neg hch]
      by_cases hdot : ch = 46
      · rw [if_pos hdot, if_pos hdot]
        have hlength : (parts.take count).length = count := by
          rw [List.length_take]
          omega
        rw [hlength]
        by_cases hstop : hasDigit = false ∨ 4 ≤ count
        · rw [if_pos hstop, if_pos hstop]
          rfl
        · have hroom : count < parts.length := by
            rw [not_or] at hstop
            omega
          have hset : (parts.set count value).length = 4 := by rw [List.length_set, hparts]
          rw [if_neg hstop, if_neg hstop, storePart, if_pos hroom, Option.bind_some,
            ih hset (by omega) (by decide), take_set_self hroom]
      · rw [if_neg hdot, if_neg hdot]
        rfl

theorem checkedParseIpv4Text_eq (parts : Vector UInt32 4) (text : Bytes) :
    checkedParseIpv4Text parts text = some (netParseIpv4Text text) :=
  checkedIpv4Loop_eq text parts.length_toList (by decide) (by decide) false

end Checked

/-! ## The printer -/

section Printer

variable (ip : UInt32)

theorem ipv4Part_u32ToDec {value : UInt32} (h : value.toNat ≤ 255) : Ipv4Part (u32ToDec value) where
  ne_nil := u32ToDec_ne_nil value
  digits := u32ToDec_digits value
  value_le := by rwa [decimalValue_u32ToDec]

theorem toNat_ipByte (ip shift : UInt32) (h : shift.toNat < 32) :
    ((ip >>> shift) &&& 0xFF).toNat = ip.toNat / 2 ^ shift.toNat % 256 := by
  have hmask : (0xFF : UInt32).toNat = 2 ^ 8 - 1 := rfl
  rw [UInt32.toNat_and, UInt32.toNat_shiftRight, hmask, Nat.and_two_pow_sub_one_eq_mod,
    Nat.mod_eq_of_lt h, Nat.shiftRight_eq_div_pow]

/-- All four parts fit the buffer. -/
theorem netIpToString_eq : netIpToString ip 24 =
    u32ToDec ((ip >>> 24) &&& 0xFF) ++ (46 : UInt8) :: (u32ToDec ((ip >>> 16) &&& 0xFF) ++
      (46 : UInt8) :: (u32ToDec ((ip >>> 8) &&& 0xFF) ++
        (46 : UInt8) :: u32ToDec ((ip >>> 0) &&& 0xFF))) := by
  have hshort : ∀ shift : UInt32, shift.toNat < 32 →
      (u32ToDec ((ip >>> shift) &&& 0xFF)).length ≤ 3 := by
    intro shift h
    apply length_u32ToDec_le (by decide)
    rw [toNat_ipByte ip shift h]
    omega
  have h24 := hshort 24 (by decide)
  have h16 := hshort 16 (by decide)
  have h8 := hshort 8 (by decide)
  have h0 := hshort 0 (by decide)
  have hlast : ip >>> 0 = ip := UInt32.shiftRight_zero
  rw [hlast] at h0 ⊢
  unfold netIpToString
  generalize u32ToDec ((ip >>> 24) &&& 0xFF) = first at *
  generalize u32ToDec ((ip >>> 16) &&& 0xFF) = second at *
  generalize u32ToDec ((ip >>> 8) &&& 0xFF) = third at *
  generalize u32ToDec (ip &&& 0xFF) = fourth at *
  rw [strcopyLimit_of_lt (show first.length < 24 by omega)]
  dsimp only
  have hsecond : (first ++ [(46 : UInt8)]).length + second.length + 2 < 24 := by
    simp only [List.length_append, List.length_singleton]
    omega
  have hthird : (first ++ [(46 : UInt8)] ++ second ++ [46]).length + third.length + 2 < 24 := by
    simp only [List.length_append, List.length_singleton]
    omega
  have hfourth : (first ++ [(46 : UInt8)] ++ second ++ [46] ++ third ++ [46]).length +
      fourth.length + 1 < 24 := by
    simp only [List.length_append, List.length_singleton]
    omega
  rw [if_pos (show first.length + 2 < 24 by omega), if_pos hsecond, if_pos hthird, if_pos hfourth]
  simp only [List.append_assoc, List.cons_append, List.nil_append]

theorem writesIpv4_netIpToString : WritesIpv4 (netIpToString ip 24) ip := by
  have hpart : ∀ shift : UInt32, shift.toNat < 32 →
      Ipv4Part (u32ToDec ((ip >>> shift) &&& 0xFF)) := by
    intro shift h
    apply ipv4Part_u32ToDec
    rw [toNat_ipByte ip shift h]
    omega
  have hreads := ReadsParts.next (hpart 24 (by decide)) (.next (hpart 16 (by decide))
    (.next (hpart 8 (by decide)) (.last (hpart 0 (by decide)))))
  rw [← netIpToString_eq] at hreads
  simp only [decimalValue_u32ToDec] at hreads
  refine ⟨_, _, _, _, hreads, ?_⟩
  have hip := ip.toNat_lt
  rw [toNat_ipByte ip 24 (by decide), toNat_ipByte ip 16 (by decide), toNat_ipByte ip 8 (by decide),
    toNat_ipByte ip 0 (by decide)]
  simp only [UInt32.reduceToNat]
  omega

end Printer

/-- A printed address is read back, the texts that are read are those of addresses, and reading
any text keeps its numbers within 32 bits and its stores within the array. -/
theorem netParseIpv4Text_correct :
    (∀ ip, netParseIpv4Text (netIpToString ip 24) = some ip) ∧
    (∀ text ip, netParseIpv4Text text = some ip ↔ WritesIpv4 text ip) ∧
    ∀ parts text, checkedParseIpv4Text parts text = some (netParseIpv4Text text) :=
  ⟨fun ip => netParseIpv4Text_eq_some_iff.mpr (writesIpv4_netIpToString ip),
    fun _ _ => netParseIpv4Text_eq_some_iff, checkedParseIpv4Text_eq⟩

example : netParseIpv4Text (ascii "10.0.2.015") = some 0x0A00020F := by decide

end SnsxOS.Arm64
