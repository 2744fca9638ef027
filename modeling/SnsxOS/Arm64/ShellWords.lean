import SnsxOS.Framework.Words
import SnsxOS.Lib.Text
import SnsxOS.Arm64.Shell

/-!
# The words of a command line

`shell_tokenize` puts a zero behind each word of the line and remembers where it starts, for at most
16 words; `shell_join_args` puts the words of a text back together with single spaces. Further words
of the line are lost.
-/

namespace SnsxOS.Arm64

open Framework

def shellArgMax : Nat := 16

/-- `while (isspace(*cursor)) ++cursor` -/
def skipSpaces (cells : Bytes) (cursor : Nat) : Nat :=
  cursor + ((cells.drop cursor).takeWhile isspace).length

/-- `while (*cursor != '\0' && !isspace(*cursor)) ++cursor` -/
def wordEnd (cells : Bytes) (cursor : Nat) : Nat :=
  cursor + ((cells.drop cursor).takeWhile fun ch => ch != 0 && !isspace ch).length

/-- The loop of `shell_tokenize` with room for some more words. There is no result where it reads
past the array. -/
def shellTokenizeFrom (cells : Bytes) (cursor : Nat) (argv : List Nat) :
    Nat → Option (Bytes × List Nat)
  | 0 => (cells[cursor]?).map fun _ => (cells, argv)
  | room + 1 =>
      (cells[cursor]?).bind fun ch =>
        if ch = 0 then some (cells, argv)
        else
          let start := skipSpaces cells cursor
          (cells[start]?).bind fun ch =>
            if ch = 0 then some (cells, argv)
            else
              let stop := wordEnd cells start
              (cells[stop]?).bind fun ch =>
                if ch = 0 then some (cells, argv ++ [start])
                else shellTokenizeFrom (cells.set stop 0) (stop + 1) (argv ++ [start]) room

/-- `shell_tokenize` -/
def shellTokenize (cells : Bytes) (maxArgs : Nat) : Option (Bytes × List Nat) :=
  shellTokenizeFrom cells 0 [] maxArgs

/-- The inner loop of `shell_join_args`. -/
def joinChars (limit : Nat) (output : Bytes) : Bytes → Bytes
  | [] => output
  | ch :: word =>
      if output.length + 1 < limit then joinChars limit (output ++ [ch]) word else output

/-- The rounds of `shell_join_args` behind the first one. -/
def joinWords (limit : Nat) (output : Bytes) : List Bytes → Bytes
  | [] => output
  | word :: args =>
      let output := if output.length + 1 < limit then output ++ [space] else output
      joinWords limit (joinChars limit output word) args

/-- `shell_join_args` on the words from its start on. -/
def joinArgs (args : List Bytes) (limit : Nat) : Bytes :=
  match args with
  | [] => []
  | word :: args => joinWords limit (joinChars limit [] word) args

/-- A call of `command_write` or of `command_append`. -/
structure TextCall where
  command : Bytes
  path : Bytes
  text : Bytes
  deriving DecidableEq

/-- The branches of `shell_run` for `write` and `append`; a line with too few words only shows how
they are used. -/
def shellTextCall (cells : Bytes) : Option TextCall :=
  (shellTokenize cells shellArgMax).bind fun (cells, argv) =>
    match argv.map fun start => cString (cells.drop start) with
    | command :: path :: word :: args =>
        if command = ascii "write" ∨ command = ascii "append" then
          some ⟨command, path, joinArgs (word :: args) shellInputMax⟩
        else none
    | _ => none

section Scan

variable {front gaps word rest : Bytes} {ch : UInt8}

theorem getElem?_front (front rest : Bytes) (ch : UInt8) :
    (front ++ ch :: rest)[front.length]? = some ch := by
  rw [List.getElem?_append_right le_rfl, Nat.sub_self]
  rfl

theorem length_takeWhile_append {p : UInt8 → Bool} (hword : ∀ c ∈ word, p c = true)
    (hstop : p ch = false) (front rest : Bytes) :
    (((front ++ (word ++ ch :: rest)).drop front.length).takeWhile p).length = word.length := by
  rw [List.drop_left, takeWhile_append_stop hword (by simp [hstop])]

theorem skipSpaces_eq (hgaps : ∀ c ∈ gaps, isspace c = true) (hch : isspace ch = false)
    (front rest : Bytes) :
    skipSpaces (front ++ (gaps ++ ch :: rest)) front.length = (front ++ gaps).length := by
  rw [skipSpaces, length_takeWhile_append hgaps hch, List.length_append]

theorem wordEnd_eq (hword : ∀ c ∈ word, isspace c = false) (hnul : NulFree word)
    (hch : ch = 0 ∨ isspace ch = true) (front rest : Bytes) :
    wordEnd (front ++ (word ++ ch :: rest)) front.length = (front ++ word).length := by
  have hinside : ∀ c ∈ word, (c != 0 && !isspace c) = true := by
    intro c hc
    have hne : c ≠ 0 := fun hzero => hnul (hzero ▸ hc)
    simp [hne, hword c hc]
  have hstop : (ch != 0 && !isspace ch) = false := by
    rcases hch with rfl | hspace
    · rfl
    · simp [hspace]
  rw [wordEnd, length_takeWhile_append hinside hstop, List.length_append]

theorem isspace_zero : isspace 0 = false := rfl

/-- One round of the loop: the next word, up to the character behind it. -/
theorem shellTokenizeFrom_word (hgaps : ∀ c ∈ gaps, isspace c = true)
    (hword : ∀ c ∈ word, isspace c = false) (hne : word ≠ []) (hnul : NulFree (gaps ++ word))
    (hch : ch = 0 ∨ isspace ch = true) (front rest : Bytes) (argv : List Nat) (room : Nat) :
    shellTokenizeFrom (front ++ (gaps ++ (word ++ ch :: rest))) front.length argv (room + 1) =
      if ch = 0 then
        some (front ++ (gaps ++ (word ++ ch :: rest)), argv ++ [(front ++ gaps).length])
      else shellTokenizeFrom ((front ++ (gaps ++ word)) ++ 0 :: rest)
        ((front ++ (gaps ++ word)).length + 1) (argv ++ [(front ++ gaps).length]) room := by
  have hwordNul : NulFree word := fun hzero => hnul (List.mem_append_right _ hzero)
  have hstop : wordEnd (front ++ (gaps ++ (word ++ ch :: rest))) (front ++ gaps).length =
      (front ++ (gaps ++ word)).length := by
    rw [← List.append_assoc, wordEnd_eq hword hwordNul hch, List.append_assoc]
  have hbehind : front ++ (gaps ++ (word ++ ch :: rest)) = (front ++ (gaps ++ word)) ++ ch :: rest := by
    simp
  have hread : (front ++ (gaps ++ (word ++ ch :: rest)))[(front ++ (gaps ++ word)).length]? =
      some ch := by
    rw [hbehind]
    exact getElem?_front _ rest ch
  have hset : (front ++ (gaps ++ (word ++ ch :: rest))).set (front ++ (gaps ++ word)).length 0 =
      (front ++ (gaps ++ word)) ++ 0 :: rest := by
    rw [hbehind, List.set_append_right _ _ le_rfl, Nat.sub_self]
    rfl
  obtain ⟨first, tail, rfl⟩ := List.exists_cons_of_ne_nil hne
  have hfirst : first ≠ 0 := fun hzero => hwordNul (hzero ▸ List.mem_cons_self)
  have hstart : (front ++ (gaps ++ (first :: tail ++ ch :: rest)))[(front ++ gaps).length]? =
      some first := by
    rw [← List.append_assoc]
    exact getElem?_front (front ++ gaps) (tail ++ ch :: rest) first
  have hcursor : ∃ c, (front ++ (gaps ++ (first :: tail ++ ch :: rest)))[front.length]? = some c ∧
      c ≠ 0 := by
    cases gaps with
    | nil => exact ⟨first, getElem?_front front (tail ++ ch :: rest) first, hfirst⟩
    | cons c gaps => exact ⟨c, getElem?_front front _ c, fun hzero => hnul (hzero ▸ List.mem_cons_self)⟩
  have hskip : skipSpaces (front ++ (gaps ++ (first :: tail ++ ch :: rest))) front.length =
      (front ++ gaps).length := skipSpaces_eq hgaps (hword first List.mem_cons_self) front _
  obtain ⟨c, hc, hcne⟩ := hcursor
  rw [shellTokenizeFrom, hc, Option.bind_some, if_neg hcne]
  simp only [hskip, hstart, Option.bind_some, if_neg hfirst, hstop, hread, hset]

/-- Without room for a word the loop ends where it is. -/
theorem shellTokenizeFrom_full (front text junk : Bytes) (argv : List Nat) :
    shellTokenizeFrom (front ++ (text ++ 0 :: junk)) front.length argv 0 =
      some (front ++ (text ++ 0 :: junk), argv) := by
  cases text <;> simp [shellTokenizeFrom]

end Scan

/-- The loop finds the next words, as many as it has room for, and leaves the front alone. -/
theorem shellTokenizeFrom_eq {text : Bytes} {words : List Bytes} (h : Spaced isspace text words)
    (hnul : NulFree text) (front junk : Bytes) (argv : List Nat) (room : Nat) :
    ∃ back starts, shellTokenizeFrom (front ++ (text ++ 0 :: junk)) front.length argv room =
        some (front ++ back, argv ++ starts) ∧
      starts.map (fun start => cString ((front ++ back).drop start)) = words.take room := by
  cases room with
  | zero =>
    refine ⟨text ++ 0 :: junk, [], ?_, rfl⟩
    rw [shellTokenizeFrom_full, List.append_nil]
  | succ room =>
    induction h generalizing front argv room with
    | @blank gaps hgaps =>
      refine ⟨gaps ++ 0 :: junk, [], ?_, rfl⟩
      have hend : (front ++ (gaps ++ 0 :: junk))[(front ++ gaps).length]? = some 0 := by
        rw [← List.append_assoc]
        exact getElem?_front (front ++ gaps) junk 0
      rw [shellTokenizeFrom, List.append_nil]
      cases gaps with
      | nil => simp
      | cons c gaps =>
        have hc : c ≠ 0 := fun hzero => hnul (hzero ▸ List.mem_cons_self)
        simp only [List.cons_append, getElem?_front front, Option.bind_some, if_neg hc]
        rw [← List.cons_append, skipSpaces_eq hgaps isspace_zero, hend]
        rfl
    | @last gaps word hgaps hword hne =>
      refine ⟨gaps ++ (word ++ 0 :: junk), [(front ++ gaps).length], ?_, ?_⟩
      · rw [List.append_assoc, shellTokenizeFrom_word hgaps hword hne hnul (.inl rfl), if_pos rfl]
      · have hwordNul : NulFree word := fun hzero => hnul (List.mem_append_right _ hzero)
        rw [← List.append_assoc, List.map_singleton, List.drop_left, cString_append_nul hwordNul]
        simp
    | @more gaps word rest sep words hgaps hword hne hsep _ ih =>
      have hgapsNul : NulFree (gaps ++ word) := fun hzero => hnul (by
        rw [← List.append_assoc]
        exact List.mem_append_left _ hzero)
      have hwordNul : NulFree word := fun hzero => hgapsNul (List.mem_append_right _ hzero)
      have hrestNul : NulFree rest := fun hzero => hnul (by simp [hzero])
      have hsepNe : sep ≠ 0 := by
        intro hzero
        rw [hzero, isspace_zero] at hsep
        cases hsep
      have hshape : front ++ (gaps ++ (word ++ sep :: rest) ++ 0 :: junk) =
          front ++ (gaps ++ (word ++ sep :: (rest ++ 0 :: junk))) := by
        simp
      rw [hshape, shellTokenizeFrom_word hgaps hword hne hgapsNul (.inr hsep), if_neg hsepNe]
      -- the rest of the line, behind the zero that ends the word
      have hfront : (front ++ (gaps ++ word)) ++ 0 :: (rest ++ 0 :: junk) =
          (front ++ (gaps ++ (word ++ [0]))) ++ (rest ++ 0 :: junk) := by
        simp
      have hlength : (front ++ (gaps ++ word)).length + 1 =
          (front ++ (gaps ++ (word ++ [0]))).length := by
        simp only [List.length_append, List.length_singleton]
        omega
      have hlater : ∃ back starts, shellTokenizeFrom
          ((front ++ (gaps ++ (word ++ [0]))) ++ (rest ++ 0 :: junk))
          (front ++ (gaps ++ (word ++ [0]))).length (argv ++ [(front ++ gaps).length]) room =
            some ((front ++ (gaps ++ (word ++ [0]))) ++ back,
              (argv ++ [(front ++ gaps).length]) ++ starts) ∧
          starts.map (fun start => cString
            (((front ++ (gaps ++ (word ++ [0]))) ++ back).drop start)) = words.take room := by
        cases room with
        | zero =>
          refine ⟨rest ++ 0 :: junk, [], ?_, rfl⟩
          rw [shellTokenizeFrom_full, List.append_nil]
        | succ room => exact ih hrestNul _ _ _
      obtain ⟨back, starts, hrun, hstarts⟩ := hlater
      refine ⟨gaps ++ (word ++ 0 :: back), (front ++ gaps).length :: starts, ?_, ?_⟩
      · rw [hfront, hlength, hrun]
        simp
      · have hcells : front ++ (gaps ++ (word ++ 0 :: back)) =
            (front ++ (gaps ++ (word ++ [0]))) ++ back := by
          simp
        have hfirst : cString ((front ++ (gaps ++ (word ++ 0 :: back))).drop (front ++ gaps).length) =
            word := by
          rw [← List.append_assoc, List.drop_left, cString_append_nul hwordNul]
        rw [List.map_cons, hfirst, hcells, hstarts, List.take_succ_cons]

section Join

variable {limit : Nat}

theorem joinChars_eq (limit : Nat) (output word : Bytes) :
    joinChars limit output word = output ++ word.take (limit - 1 - output.length) := by
  induction word generalizing output with
  | nil => simp [joinChars]
  | cons ch word ih =>
    rw [joinChars]
    split
    · rename_i hroom
      have hleft : limit - 1 - output.length = limit - 1 - (output ++ [ch]).length + 1 := by
        rw [List.length_append, List.length_singleton]
        omega
      rw [ih, hleft, List.take_succ_cons, List.append_assoc, List.singleton_append]
    · have hleft : limit - 1 - output.length = 0 := by omega
      rw [hleft, List.take_zero, List.append_nil]

theorem joinWords_eq (limit : Nat) (output : Bytes) (args : List Bytes) :
    joinWords limit output args =
      output ++ (args.flatMap (space :: ·)).take (limit - 1 - output.length) := by
  induction args generalizing output with
  | nil => simp [joinWords]
  | cons word args ih =>
    have hspace : joinChars limit (if output.length + 1 < limit then output ++ [space] else output)
        word = joinChars limit output (space :: word) := by
      rw [joinChars]
      split
      · rfl
      · rw [joinChars_eq]
        have hleft : limit - 1 - output.length = 0 := by omega
        rw [hleft, List.take_zero, List.append_nil]
    rw [joinWords, hspace, ih, joinChars_eq, List.flatMap_cons, List.take_append, List.append_assoc,
      List.length_append, List.length_take]
    congr 3
    omega

theorem joinArgs_eq (args : List Bytes) (limit : Nat) :
    joinArgs args limit = strcopyLimit ([space].intercalate args) limit := by
  have hjoined : ∀ (word : Bytes) (args : List Bytes),
      [space].intercalate (word :: args) = word ++ args.flatMap (space :: ·) := by
    intro word args
    induction args generalizing word with
    | nil => simp
    | cons next args ih =>
      rw [List.intercalate_cons_of_ne_nil (by simp), ih, List.flatMap_cons]
      simp
  cases args with
  | nil => simp [joinArgs, strcopyLimit]
  | cons word args =>
    rw [joinArgs, joinWords_eq, joinChars_eq, hjoined, strcopyLimit, List.take_append,
      List.nil_append, List.length_nil, Nat.sub_zero, List.length_take]
    congr 2
    omega

end Join

/-- The loops compute the text of the commands on words. -/
theorem joinArgs_words (words : List Word) (limit : Nat) :
    joinArgs (words.map Word.bytes) limit = shellJoinArgs words limit :=
  joinArgs_eq _ limit

theorem shellTokenize_eq (line : Buffer shellInputMax) (hline : line.str.length < shellInputMax) :
    ∃ cells argv, shellTokenize line.cells shellArgMax = some (cells, argv) ∧
      argv.map (fun start => cString (cells.drop start)) =
        (textWords isspace line.str).take shellArgMax := by
  obtain ⟨junk, hcells⟩ := cString_split (hline.trans_eq line.length_cells.symm)
  obtain ⟨back, starts, hrun, hwords⟩ := shellTokenizeFrom_eq
    (spaced_textWords isspace line.str) line.str_nulFree [] junk [] shellArgMax
  refine ⟨back, starts, ?_, hwords⟩
  rw [shellTokenize, hcells]
  exact hrun

/-- The commands get the first words of the text. -/
theorem shellTextCall_eq (line : Buffer shellInputMax) (hline : line.str.length < shellInputMax)
    {command path word : Bytes} {args : List Bytes}
    (hwords : textWords isspace line.str = command :: path :: word :: args)
    (hcommand : command = ascii "write" ∨ command = ascii "append") :
    shellTextCall line.cells = some ⟨command, path,
      [space].intercalate ((word :: args).take (shellArgMax - 2))⟩ := by
  obtain ⟨cells, argv, hrun, hargv⟩ := shellTokenize_eq line hline
  rw [hwords] at hargv
  have hfit : ([space].intercalate ((word :: args).take (shellArgMax - 2))).length <
      shellInputMax := by
    have hdrop := length_intercalate_drop_le space isspace line.str 2
    rw [hwords] at hdrop
    have htake := length_intercalate_take_le space (word :: args) (shellArgMax - 2)
    exact (htake.trans hdrop).trans_lt hline
  rw [shellTextCall, hrun, Option.bind_some]
  simp only [hargv]
  show (if command = ascii "write" ∨ command = ascii "append" then _ else none) = _
  rw [if_pos hcommand, joinArgs_eq]
  congr 2
  exact strcopyLimit_of_lt hfit

/-- The text of a `write` or `append` line arrives whole if and only if the line has no more than
16 words. -/
theorem shellTextCall_iff (line : Buffer shellInputMax) (hline : line.str.length < shellInputMax)
    {command path word : Bytes} {args : List Bytes}
    (hwords : textWords isspace line.str = command :: path :: word :: args)
    (hcommand : command = ascii "write" ∨ command = ascii "append") :
    shellTextCall line.cells = some ⟨command, path, [space].intercalate (word :: args)⟩ ↔
      (textWords isspace line.str).length ≤ shellArgMax := by
  have hlength : (textWords isspace line.str).length ≤ shellArgMax ↔
      (word :: args).length ≤ shellArgMax - 2 := by
    rw [hwords]
    simp only [List.length_cons, shellArgMax]
    omega
  rw [shellTextCall_eq line hline hwords hcommand, hlength,
    ← intercalate_take_eq_iff space (word :: args) (show 0 < shellArgMax - 2 by decide)]
  simp

theorem shellTextCall_iff_two :
    shellTextCall ((Buffer.zero shellInputMax).strcpy (ascii " append  notes hello world ")).cells =
        some ⟨ascii "append", ascii "notes", [space].intercalate [ascii "hello", ascii "world"]⟩ ↔
      (textWords isspace
        ((Buffer.zero shellInputMax).strcpy (ascii " append  notes hello world ")).str).length ≤
          shellArgMax :=
  shellTextCall_iff _ (by decide +kernel) (by decide +kernel) (.inr rfl)

/-- A line of 17 words. -/
theorem not_shellTextCall :
    ∃ args, textWords isspace ((Buffer.zero shellInputMax).strcpy
        (ascii "write f 1 2 3 4 5 6 7 8 9 a b c d e f")).str = ascii "write" :: ascii "f" :: args ∧
      shellTextCall ((Buffer.zero shellInputMax).strcpy
        (ascii "write f 1 2 3 4 5 6 7 8 9 a b c d e f")).cells ≠
          some ⟨ascii "write", ascii "f", [space].intercalate args⟩ :=
  ⟨(textWords isspace (ascii "1 2 3 4 5 6 7 8 9 a b c d e f")), by decide +kernel,
    by decide +kernel⟩

end SnsxOS.Arm64
