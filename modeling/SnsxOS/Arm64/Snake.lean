import SnsxOS.Framework.Painting
import SnsxOS.Framework.Transition
import SnsxOS.Lib.Text
import SnsxOS.Arm64.TextEditor

/-!
# The snake game

`ui_run_snake_app` draws a frame, reads up to eight events and then moves the snake by one cell. The
cells of the snake are the first `length` ones of two arrays, which are one array of pairs here.
What the random numbers are is left open.
-/

namespace SnsxOS.Arm64

open Framework

def snakeMaxSegments : Nat := 256

def boardW : Int := 24

def boardH : Int := 16

/-- `for (wait_step = 0; wait_step < 8; ++wait_step)` -/
def snakeWaitSteps : Nat := 8

def efiScanUp : UInt16 := 0x01

def efiScanDown : UInt16 := 0x02

structure Snake where
  segments : List (Int × Int)
  length : Nat
  dir : Int × Int
  nextDir : Int × Int
  food : Int × Int
  paused : Bool
  gameOver : Bool

/-- What an event says to the loop: whether the pointer is used on the close button or on one of the
buttons below the board, and the key. -/
structure SnakeEvent where
  close : Bool
  pause : Bool
  restart : Bool
  exit : Bool
  key : Option EfiKey
  deriving DecidableEq

/-- What the polls of a frame find, and the random numbers of its new food. -/
structure SnakeFrame where
  polls : List (Option SnakeEvent)
  random : Nat → UInt32

/-- How the loop over the events goes on. -/
inductive SnakeReply where
  | go (s : Snake)
  | restart
  | leave

/-- A game that is played, one that was left, and one that has stored outside its arrays. -/
inductive SnakeOutcome where
  | plays (s : Snake)
  | leaves
  | faults

def snakeOccupied (cell : Int × Int) (segments : List (Int × Int)) (length : Nat) : Bool :=
  (segments.take length).contains cell

/-- The cell that an attempt of `snake_spawn_food` draws. -/
def foodCandidate (random : Nat → UInt32) (attempt : Nat) : Int × Int :=
  ((random (2 * attempt)).toNat % boardW, (random (2 * attempt + 1)).toNat % boardH)

def snakeSpawnFood (random : Nat → UInt32) (segments : List (Int × Int)) (length : Nat) :
    Int × Int :=
  match (List.range 256).find? fun attempt =>
      !snakeOccupied (foodCandidate random attempt) segments length with
  | some attempt => foodCandidate random attempt
  | none => (0, 0)

/-- What stands behind `restart_game`. -/
def snakeRestart (segments : List (Int × Int)) (random : Nat → UInt32) : Option Snake :=
  (forLoop 0 5 (fun i segments => paint segments i (8 - (i : Int), 7)) segments).map
    fun segments =>
      { segments, length := 5, dir := (1, 0), nextDir := (1, 0),
        food := snakeSpawnFood random segments 5, paused := false, gameOver := false }

/-- `for (i = length - 1; i > 0; --i)`: each cell gets what the cell before it holds. -/
def shiftSegments (segments : List (Int × Int)) : Nat → Option (List (Int × Int))
  | 0 => some segments
  | i + 1 => (segments[i]?).bind fun cell =>
      (paint segments (i + 1) cell).bind fun segments => shiftSegments segments i

namespace Snake

def body (s : Snake) : List (Int × Int) := s.segments.take s.length

/-- The snake gets longer by a copy of its last cell where it may. -/
def grown (s : Snake) (grow : Bool) : Option (List (Int × Int) × Nat) :=
  if grow ∧ s.length + 1 < snakeMaxSegments then
    (s.segments[s.length - 1]?).bind fun tail =>
      (paint s.segments s.length tail).map fun segments => (segments, s.length + 1)
  else some (s.segments, s.length)

/-- The part of a frame behind its events. -/
def move (s : Snake) (random : Nat → UInt32) : Option Snake :=
  (s.segments[0]?).bind fun head =>
    let cell := head + s.nextDir
    let grow := cell = s.food
    if cell.1 < 0 ∨ cell.1 ≥ boardW ∨ cell.2 < 0 ∨ cell.2 ≥ boardH ∨
        snakeOccupied cell s.segments (if grow then s.length else s.length - 1) then
      some { s with dir := s.nextDir, gameOver := true }
    else
      (s.grown grow).bind fun (segments, length) =>
        (shiftSegments segments (length - 1)).bind fun segments =>
          (paint segments 0 cell).map fun segments =>
            { s with
              segments, length
              dir := s.nextDir
              food := if grow then snakeSpawnFood random segments length else s.food }

def turned (s : Snake) (blocked : Bool) (dir : Int × Int) : Snake :=
  if blocked then s else { s with nextDir := dir }

def up (s : Snake) : Snake := s.turned (s.dir.2 = 1) (0, -1)

def down (s : Snake) : Snake := s.turned (s.dir.2 = -1) (0, 1)

def left (s : Snake) : Snake := s.turned (s.dir.1 = 1) (-1, 0)

def right (s : Snake) : Snake := s.turned (s.dir.1 = -1) (1, 0)

def togglePause (s : Snake) : Snake := { s with paused := !s.paused }

/-- The chain of tests on the scan code. An arrow that is blocked passes no later test either. -/
def scanned (s : Snake) (scanCode : UInt16) : Snake :=
  if scanCode = efiScanUp then s.up
  else if scanCode = efiScanDown then s.down
  else if scanCode = efiScanLeft then s.left
  else if scanCode = efiScanRight then s.right
  else s

/-- A key: `w`, `s`, `a`, `d`, `r` and the space bar, and then the arrows. -/
def onKey (s : Snake) (key : EfiKey) : SnakeReply :=
  if key.scanCode = efiScanEsc then .leave
  else
    let ch := asciiLower key.unicodeChar.toUInt8
    if ch = 119 then .go (s.up.scanned key.scanCode)
    else if ch = 115 then .go (s.down.scanned key.scanCode)
    else if ch = 97 then .go (s.left.scanned key.scanCode)
    else if ch = 100 then .go (s.right.scanned key.scanCode)
    else if ch = 114 then .restart
    else if ch = 32 then .go (s.togglePause.scanned key.scanCode)
    else .go (s.scanned key.scanCode)

def onEvent (s : Snake) (event : SnakeEvent) : SnakeReply :=
  if event.close then .leave
  else if !event.pause && event.restart then .restart
  else if !event.pause && event.exit then .leave
  else
    let s := if event.pause then s.togglePause else s
    match event.key with
    | none => .go s
    | some key => s.onKey key

def onPolls (s : Snake) : List (Option SnakeEvent) → SnakeReply
  | [] => .go s
  | none :: polls => s.onPolls polls
  | some event :: polls =>
      match s.onEvent event with
      | .go s => s.onPolls polls
      | reply => reply

end Snake

def SnakeOutcome.ofOption : Option Snake → SnakeOutcome
  | some s => .plays s
  | none => .faults

/-- One round of the game loop. -/
def snakeFrame (s : Snake) (frame : SnakeFrame) : SnakeOutcome :=
  match s.onPolls (frame.polls.take snakeWaitSteps) with
  | .leave => .leaves
  | .restart => .ofOption (snakeRestart s.segments frame.random)
  | .go s => if s.paused || s.gameOver then .plays s else .ofOption (s.move frame.random)

def SnakeOutcome.step (outcome : SnakeOutcome) (frame : SnakeFrame) : SnakeOutcome :=
  match outcome with
  | .plays s => snakeFrame s frame
  | outcome => outcome

/-- The app, whose arrays hold anything at the start. -/
def uiRunSnakeApp (segments : List (Int × Int)) (random : Nat → UInt32)
    (frames : List SnakeFrame) : SnakeOutcome :=
  run SnakeOutcome.step (.ofOption (snakeRestart segments random)) frames

/-- A step to one of the four neighbours. -/
def UnitDir (d : Int × Int) : Prop := d = (0, -1) ∨ d = (0, 1) ∨ d = (-1, 0) ∨ d = (1, 0)

instance (d : Int × Int) : Decidable (UnitDir d) := inferInstanceAs (Decidable (_ ∨ _))

def OnBoard (cell : Int × Int) : Prop :=
  0 ≤ cell.1 ∧ cell.1 < boardW ∧ 0 ≤ cell.2 ∧ cell.2 < boardH

instance (cell : Int × Int) : Decidable (OnBoard cell) := inferInstanceAs (Decidable (_ ∧ _))

/-- A cell of the snake and the one behind it. -/
def Leads (cell behind : Int × Int) : Prop := UnitDir (cell - behind)

instance (cell behind : Int × Int) : Decidable (Leads cell behind) :=
  inferInstanceAs (Decidable (UnitDir _))

/-- A snake of different cells in a row, on the board, that never turns back. -/
structure Snake.Valid (s : Snake) : Prop where
  size : s.segments.length = snakeMaxSegments
  length_ge : 5 ≤ s.length
  length_lt : s.length < snakeMaxSegments
  onBoard : ∀ cell ∈ s.body, OnBoard cell
  distinct : s.body.Nodup
  adjacent : s.body.IsChain Leads
  unit : UnitDir s.dir
  nextUnit : UnitDir s.nextDir
  forward : s.nextDir ≠ -s.dir

/-- The next cell of the snake is a wall or one of its own cells; the last cell moves on unless the
snake eats. -/
def Snake.Collides (s : Snake) (head : Int × Int) (dir : Int × Int) : Prop :=
  ¬ OnBoard (head + dir) ∨ head + dir ∈ if head + dir = s.food then s.body else s.body.dropLast

/-- The snake eats and has room to grow. -/
def Snake.Grows (s : Snake) (head dir : Int × Int) : Prop :=
  head + dir = s.food ∧ s.length + 1 < snakeMaxSegments

instance (s : Snake) (head dir : Int × Int) : Decidable (s.Grows head dir) :=
  inferInstanceAs (Decidable (_ ∧ _))

/-- A move of the game: in a direction that is not back, to the end of the game or to the next
cell, where the snake gets longer by one exactly if it grows. -/
structure Snake.Moves (s s' : Snake) : Prop where
  unit : UnitDir s'.dir
  forward : s'.dir ≠ -s.dir
  moved : ∃ head rest, s.body = head :: rest ∧
    (s.Collides head s'.dir ∧ s'.gameOver = true ∧ s'.body = s.body ∧ s'.length = s.length ∨
      ¬ s.Collides head s'.dir ∧ s'.gameOver = false ∧
        s'.body = (head + s'.dir) :: (if s.Grows head s'.dir then s.body else s.body.dropLast) ∧
        s'.length = if s.Grows head s'.dir then s.length + 1 else s.length)

/-- What a frame does to a game: it starts another one, waits, or makes a move. -/
inductive Snake.Goes (s s' : Snake) : Prop where
  | restarted (segments : List (Int × Int)) (random : Nat → UInt32)
      (h : snakeRestart segments random = some s')
  | waits (stopped : s'.paused = true ∨ s'.gameOver = true) (gameOver : s'.gameOver = s.gameOver)
      (body : s'.body = s.body) (length : s'.length = s.length) (dir : s'.dir = s.dir)
  | moves (h : s.Moves s')

theorem UnitDir.ne_neg {d : Int × Int} (h : UnitDir d) : d ≠ -d := by
  obtain rfl | rfl | rfl | rfl := h
  all_goals decide

section Arrays

variable {segments : List (Int × Int)} {k : Nat}

/-- Behind the first cell the shifted array holds the cells before the last one shifted. -/
theorem shiftSegments_eq (hk : k < segments.length) :
    ∃ shifted, shiftSegments segments k = some shifted ∧
      shifted.length = segments.length ∧
      shifted.tail = segments.take k ++ segments.drop (k + 1) := by
  induction k generalizing segments with
  | zero =>
    refine ⟨segments, rfl, rfl, ?_⟩
    rw [List.take_zero, List.nil_append, List.drop_one]
  | succ k ih =>
    have hlow : k < segments.length := Nat.lt_of_succ_lt hk
    have hset : (segments.set (k + 1) segments[k]).length = segments.length := List.length_set
    obtain ⟨shifted, hrun, hlength, htail⟩ := ih (hset.symm ▸ hlow)
    refine ⟨shifted, ?_, hlength.trans hset, ?_⟩
    · rw [shiftSegments, List.getElem?_eq_getElem hlow, Option.bind_some, paint, if_pos hk,
        Option.bind_some, hrun]
    · calc shifted.tail
        _ = segments.take k ++ (segments.set (k + 1) segments[k]).drop (k + 1) := by
          rw [htail, List.take_set_of_le (Nat.le_succ k)]
        _ = segments.take k ++ segments[k] :: segments.drop (k + 2) := by
          rw [List.drop_eq_getElem_cons (hset.symm ▸ hk), List.getElem_set_self,
            List.drop_set_of_lt (Nat.lt_succ_self (k + 1))]
        _ = segments.take (k + 1) ++ segments.drop (k + 2) := by
          rw [List.take_succ_eq_append_getElem hlow, List.append_assoc, List.singleton_append]

/-- The moved snake: the new cell, and behind it all cells but the last one. -/
theorem shiftSegments_paint {n : Nat} (hpos : 0 < n) (hn : n ≤ segments.length)
    (cell : Int × Int) :
    ∃ shifted moved, shiftSegments segments (n - 1) = some shifted ∧
      paint shifted 0 cell = some moved ∧ moved.length = segments.length ∧
      moved.take n = cell :: segments.take (n - 1) := by
  have hlast : n - 1 < segments.length := Nat.lt_of_lt_of_le (Nat.sub_one_lt_of_lt hpos) hn
  obtain ⟨shifted, hrun, hlength, htail⟩ := shiftSegments_eq hlast
  have hzero : 0 < shifted.length := hlength.symm ▸ Nat.lt_of_lt_of_le hpos hn
  refine ⟨shifted, shifted.set 0 cell, hrun, if_pos hzero, List.length_set.trans hlength, ?_⟩
  cases shifted with
  | nil => exact absurd hzero (Nat.lt_irrefl 0)
  | cons first rest =>
    have hrest : rest = segments.take (n - 1) ++ segments.drop (n - 1 + 1) := htail
    have htake : (segments.take (n - 1)).length = n - 1 :=
      List.length_take_of_le (Nat.le_of_lt hlast)
    obtain ⟨m, rfl⟩ := Nat.exists_eq_succ_of_ne_zero (Nat.ne_of_gt hpos)
    rw [List.set_cons_zero, List.take_succ_cons, hrest]
    exact congrArg (cell :: ·) (List.take_left' htake)

end Arrays

namespace Snake

variable {s : Snake} {head : Int × Int}

theorem Valid.length_le (h : s.Valid) : s.length ≤ s.segments.length :=
  h.size.symm ▸ Nat.le_of_lt h.length_lt

theorem Valid.length_body (h : s.Valid) : s.body.length = s.length :=
  List.length_take_of_le h.length_le

theorem Valid.exists_head (h : s.Valid) :
    ∃ head rest, s.segments[0]? = some head ∧ s.body = head :: rest := by
  have hlength := h.length_body
  have hge := h.length_ge
  cases hbody : s.body with
  | nil =>
    rw [hbody, List.length_nil] at hlength
    omega
  | cons head rest =>
    refine ⟨head, rest, ?_, rfl⟩
    have hzero : s.body[0]? = s.segments[0]? := List.getElem?_take_of_lt (by omega)
    rw [← hzero, hbody, List.getElem?_cons_zero]

theorem Valid.dropLast_body (h : s.Valid) : s.body.dropLast = s.segments.take (s.length - 1) := by
  have hsize := h.size
  have hlt := h.length_lt
  exact List.dropLast_take (by omega)

theorem prefix_body (s : Snake) (dir : Int × Int) :
    (if s.Grows head dir then s.body else s.body.dropLast) <+: s.body := by
  by_cases hgrow : s.Grows head dir
  · rw [if_pos hgrow]
  · rw [if_neg hgrow]
    exact List.dropLast_prefix s.body

/-- The copy of the last cell stands behind the snake, where the move drops it again. -/
theorem Valid.grown_eq (h : s.Valid) (head dir : Int × Int) :
    ∃ segments n, s.grown (head + dir = s.food) = some (segments, n) ∧
      n = (if s.Grows head dir then s.length + 1 else s.length) ∧
      segments.length = snakeMaxSegments ∧
      segments.take (n - 1) = if s.Grows head dir then s.body else s.body.dropLast := by
  by_cases hgrow : s.Grows head dir
  · have hsize := h.size
    have hin : s.length < s.segments.length := hsize.symm ▸ h.length_lt
    have hlast : s.length - 1 < s.segments.length := Nat.lt_of_le_of_lt (Nat.sub_le _ _) hin
    refine ⟨s.segments.set s.length s.segments[s.length - 1], s.length + 1, ?_, ?_, ?_, ?_⟩
    · rw [grown, if_pos ⟨decide_eq_true hgrow.1, hgrow.2⟩, List.getElem?_eq_getElem hlast,
        Option.bind_some, paint, if_pos hin, Option.map_some]
    · rw [if_pos hgrow]
    · exact List.length_set.trans hsize
    · rw [if_pos hgrow, Nat.add_sub_cancel]
      exact List.take_set_of_le le_rfl
  · refine ⟨s.segments, s.length, ?_, ?_, h.size, ?_⟩
    · rw [grown, if_neg]
      intro hgrows
      exact hgrow ⟨of_decide_eq_true hgrows.1, hgrows.2⟩
    · rw [if_neg hgrow]
    · rw [if_neg hgrow, h.dropLast_body]

theorem Valid.collides_iff (h : s.Valid) (cell : Int × Int) (hcell : cell = head + s.nextDir) :
    (cell.1 < 0 ∨ cell.1 ≥ boardW ∨ cell.2 < 0 ∨ cell.2 ≥ boardH ∨
      snakeOccupied cell s.segments (if cell = s.food then s.length else s.length - 1) = true) ↔
      s.Collides head s.nextDir := by
  have hoccupied :
      snakeOccupied cell s.segments (if cell = s.food then s.length else s.length - 1) = true ↔
        cell ∈ if cell = s.food then s.body else s.body.dropLast := by
    rw [snakeOccupied, List.contains_iff_mem]
    by_cases hfood : cell = s.food
    · rw [if_pos hfood, if_pos hfood, body]
    · rw [if_neg hfood, if_neg hfood, h.dropLast_body]
  rw [Collides, ← hcell, hoccupied, OnBoard]
  generalize (cell ∈ if cell = s.food then s.body else s.body.dropLast) = hit
  by_cases hhit : hit
  · simp only [hhit, or_true]
  · simp only [hhit, or_false]
    omega

/-- The cells behind the new head: all of the snake if it grows, else all but its last cell. -/
theorem Valid.kept_front (h : s.Valid) (hhead : s.body.head? = some head) (dir : Int × Int) :
    (if s.Grows head dir then s.body else s.body.dropLast).head? = some head := by
  by_cases hgrow : s.Grows head dir
  · rw [if_pos hgrow, hhead]
  · have hlength := h.length_body
    have hge := h.length_ge
    rw [if_neg hgrow, List.head?_dropLast, if_pos (by omega), hhead]

/-- The cell in front of a snake that does not collide leads it on. -/
theorem Valid.advance (h : s.Valid) (hhead : s.body.head? = some head)
    (hmiss : ¬ s.Collides head s.nextDir) {kept : List (Int × Int)}
    (hkept : kept = if s.Grows head s.nextDir then s.body else s.body.dropLast) :
    (∀ cell ∈ (head + s.nextDir) :: kept, OnBoard cell) ∧
      ((head + s.nextDir) :: kept).Nodup ∧ ((head + s.nextDir) :: kept).IsChain Leads := by
  have hfree := not_or.mp hmiss
  have hsub : kept <+: s.body := hkept ▸ s.prefix_body s.nextDir
  have hnew : head + s.nextDir ∉ kept := by
    by_cases hfood : head + s.nextDir = s.food
    · rw [if_pos hfood] at hfree
      exact fun hmem => hfree.2 (hsub.subset hmem)
    · rw [if_neg hfood] at hfree
      rw [hkept, if_neg fun hgrow => hfood hgrow.1]
      exact hfree.2
  refine ⟨?_, List.nodup_cons.mpr ⟨hnew, h.distinct.sublist hsub.sublist⟩, ?_⟩
  · intro cell hcell
    cases List.mem_cons.mp hcell with
    | inl hfirst => exact hfirst.symm ▸ not_not.mp hfree.1
    | inr hold => exact h.onBoard cell (hsub.subset hold)
  · rw [List.isChain_cons]
    refine ⟨?_, h.adjacent.prefix hsub⟩
    intro behind hbehind
    rw [hkept, h.kept_front hhead] at hbehind
    have heq : head = behind := Option.some.inj hbehind
    rw [Leads, heq, add_sub_cancel_left]
    exact h.nextUnit

theorem Valid.grows_length (h : s.Valid) (dir : Int × Int) {n : Nat}
    (hn : n = if s.Grows head dir then s.length + 1 else s.length) :
    5 ≤ n ∧ n < snakeMaxSegments := by
  by_cases hgrow : s.Grows head dir
  · rw [hn, if_pos hgrow]
    exact ⟨Nat.le_succ_of_le h.length_ge, hgrow.2⟩
  · rw [hn, if_neg hgrow]
    exact ⟨h.length_ge, h.length_lt⟩

/-- A move that hits something ends the game; any other one leads the snake on. -/
theorem Valid.move_moves (h : s.Valid) (hover : s.gameOver = false) (random : Nat → UInt32) :
    ∃ s', s.move random = some s' ∧ s'.Valid ∧ s.Moves s' := by
  obtain ⟨head, rest, hfirst, hbody⟩ := h.exists_head
  have hcollides := h.collides_iff (head + s.nextDir) rfl
  by_cases hhit : s.Collides head s.nextDir
  · refine ⟨{ s with dir := s.nextDir, gameOver := true }, ?_, ?_, ?_⟩
    · rw [move, hfirst, Option.bind_some, if_pos (hcollides.mpr hhit)]
    · exact { h with unit := h.nextUnit, forward := h.nextUnit.ne_neg }
    · exact ⟨h.nextUnit, h.forward, head, rest, hbody, Or.inl ⟨hhit, rfl, rfl, rfl⟩⟩
  · obtain ⟨segments, n, hgrown, hn, hsize, hkept⟩ := h.grown_eq head s.nextDir
    obtain ⟨hge, hlt⟩ := h.grows_length s.nextDir hn
    have hpos : 0 < n := by omega
    have hroom : n ≤ segments.length := hsize.symm ▸ Nat.le_of_lt hlt
    obtain ⟨shifted, moved, hshifted, hmoved, hlength, htake⟩ :=
      shiftSegments_paint hpos hroom (head + s.nextDir)
    have hhead : s.body.head? = some head := by rw [hbody, List.head?_cons]
    have hrow := h.advance hhead hhit hkept
    rw [← htake] at hrow
    rw [hkept] at htake
    refine ⟨{ s with
      segments := moved, length := n, dir := s.nextDir
      food := if head + s.nextDir = s.food then snakeSpawnFood random moved n else s.food },
      ?_, ?_, ?_⟩
    · rw [move, hfirst, Option.bind_some, if_neg (mt hcollides.mp hhit), hgrown, Option.bind_some]
      dsimp only
      rw [hshifted, Option.bind_some, hmoved, Option.map_some]
    · exact ⟨hlength.trans hsize, hge, hlt, hrow.1, hrow.2.1, hrow.2.2, h.nextUnit, h.nextUnit,
        h.nextUnit.ne_neg⟩
    · exact ⟨h.nextUnit, h.forward, head, rest, hbody, Or.inr ⟨hhit, hover, htake, hn⟩⟩

example :
    let s : Snake :=
      { segments := [(8, 7), (7, 7), (6, 7), (5, 7), (4, 7), (0, 0)], length := 5
        dir := (1, 0), nextDir := (1, 0), food := (8, 6), paused := false, gameOver := false }
    (s.up.left.move Nat.toUInt32).map body =
      some [(8, 6), (8, 7), (7, 7), (6, 7), (5, 7), (4, 7)] := by decide

/-- A new game is one whatever the arrays held before. -/
theorem restart_valid {segments : List (Int × Int)} (hsize : segments.length = snakeMaxSegments)
    (random : Nat → UInt32) : ∃ s, snakeRestart segments random = some s ∧ s.Valid := by
  have hfive : 5 < snakeMaxSegments := by decide
  have hright : UnitDir (1, 0) := by decide
  obtain ⟨filled, hrun, hlength, htake⟩ :=
    forLoop_paint_take (fun i => (8 - (i : Int), (7 : Int))) (hsize.symm ▸ Nat.le_of_lt hfive)
  have hbody : filled.take 5 = [(8, 7), (7, 7), (6, 7), (5, 7), (4, 7)] := htake
  refine ⟨_, congrArg (Option.map _) hrun,
    ⟨hlength.trans hsize, le_rfl, hfive, ?_, ?_, ?_, hright, hright, hright.ne_neg⟩⟩
  all_goals
    rw [body, hbody]
    decide

/-- What the events between two moves change. -/
def Steered (s s' : Snake) : Prop :=
  s'.Valid ∧ ∃ nextDir paused, s' = { s with nextDir, paused }

theorem Steered.trans {s' s'' : Snake} (h : s.Steered s') (h' : s'.Steered s'') :
    s.Steered s'' := by
  obtain ⟨_, _, _, rfl⟩ := h
  obtain ⟨hvalid, dir, paused, heq⟩ := h'
  exact ⟨hvalid, dir, paused, heq⟩

theorem Valid.steered (h : s.Valid) : s.Steered s := ⟨h, s.nextDir, s.paused, rfl⟩

theorem Valid.togglePause (h : s.Valid) : s.Steered s.togglePause :=
  ⟨{ h with }, s.nextDir, !s.paused, rfl⟩

/-- The test is on the direction of the last move, so a key after another one turns no further. -/
theorem Valid.turned (h : s.Valid) {blocked : Bool} {dir : Int × Int} (hunit : UnitDir dir)
    (hblocked : s.dir = -dir → blocked = true) : s.Steered (s.turned blocked dir) := by
  cases hcase : blocked with
  | true => exact h.steered
  | false =>
    have hforward : dir ≠ -s.dir := by
      intro hback
      rw [hblocked (neg_eq_iff_eq_neg.mp hback.symm)] at hcase
      cases hcase
    exact ⟨{ h with nextUnit := hunit, forward := hforward }, dir, s.paused, rfl⟩

theorem Valid.up (h : s.Valid) : s.Steered s.up :=
  h.turned (by decide) fun hdir => decide_eq_true (congrArg Prod.snd hdir)

theorem Valid.down (h : s.Valid) : s.Steered s.down :=
  h.turned (by decide) fun hdir => decide_eq_true (congrArg Prod.snd hdir)

theorem Valid.left (h : s.Valid) : s.Steered s.left :=
  h.turned (by decide) fun hdir => decide_eq_true (congrArg Prod.fst hdir)

theorem Valid.right (h : s.Valid) : s.Steered s.right :=
  h.turned (by decide) fun hdir => decide_eq_true (congrArg Prod.fst hdir)

theorem Valid.scanned (h : s.Valid) (scanCode : UInt16) : s.Steered (s.scanned scanCode) := by
  unfold Snake.scanned
  split_ifs
  · exact h.up
  · exact h.down
  · exact h.left
  · exact h.right
  · exact h.steered

theorem Steered.scanned {s' : Snake} (h : s.Steered s') (scanCode : UInt16) :
    s.Steered (s'.scanned scanCode) := h.trans (h.1.scanned scanCode)

theorem Valid.onKey (h : s.Valid) {key : EfiKey} {s' : Snake} (hgo : s.onKey key = .go s') :
    s.Steered s' := by
  unfold Snake.onKey at hgo
  dsimp only at hgo
  split_ifs at hgo
  all_goals
    obtain rfl := SnakeReply.go.inj hgo
  · exact h.up.scanned key.scanCode
  · exact h.down.scanned key.scanCode
  · exact h.left.scanned key.scanCode
  · exact h.right.scanned key.scanCode
  · exact h.togglePause.scanned key.scanCode
  · exact h.scanned key.scanCode

theorem Valid.onEvent (h : s.Valid) {event : SnakeEvent} {s' : Snake}
    (hgo : s.onEvent event = .go s') : s.Steered s' := by
  unfold Snake.onEvent at hgo
  dsimp only at hgo
  split at hgo
  · cases hgo
  split at hgo
  · cases hgo
  split at hgo
  · cases hgo
  have hpause : s.Steered (if event.pause then s.togglePause else s) := by
    split
    · exact h.togglePause
    · exact h.steered
  generalize (if event.pause then s.togglePause else s) = paused at hgo hpause
  split at hgo
  · obtain rfl := SnakeReply.go.inj hgo
    exact hpause
  · exact hpause.trans (hpause.1.onKey hgo)

/-- Any number of events only steers. -/
theorem Valid.onPolls (h : s.Valid) {polls : List (Option SnakeEvent)} {s' : Snake}
    (hgo : s.onPolls polls = .go s') : s.Steered s' := by
  induction polls generalizing s with
  | nil =>
    obtain rfl := SnakeReply.go.inj hgo
    exact h.steered
  | cons poll polls ih =>
    cases poll with
    | none => exact ih h hgo
    | some event =>
      rw [Snake.onPolls] at hgo
      split at hgo
      · rename_i next hevent
        have hnext := h.onEvent hevent
        exact hnext.trans (ih hnext.1 hgo)
      · rename_i hstop
        exact absurd hgo (hstop s')

theorem Steered.goes {s' s'' : Snake} (h : s.Steered s') (hmoves : s'.Moves s'') : s.Goes s'' := by
  obtain ⟨_, dir, paused, rfl⟩ := h
  exact .moves ⟨hmoves.unit, hmoves.forward, hmoves.moved⟩

end Snake

/-- A game that is played is a valid one, and the arrays are kept to. -/
def SnakeOutcome.Sound : SnakeOutcome → Prop
  | .plays s => s.Valid
  | .leaves => True
  | .faults => False

theorem snakeFrame_sound {s : Snake} (h : s.Valid) (frame : SnakeFrame) :
    (snakeFrame s frame).Sound ∧ ∀ s', snakeFrame s frame = .plays s' → s.Goes s' := by
  cases hpolls : s.onPolls (frame.polls.take snakeWaitSteps) with
  | leave =>
    have hframe : snakeFrame s frame = .leaves := by rw [snakeFrame, hpolls]
    rw [hframe]
    exact ⟨trivial, fun s' hplays => by cases hplays⟩
  | restart =>
    obtain ⟨fresh, hfresh, hvalid⟩ := Snake.restart_valid h.size frame.random
    have hframe : snakeFrame s frame = .plays fresh := by
      rw [snakeFrame, hpolls]
      exact congrArg SnakeOutcome.ofOption hfresh
    rw [hframe]
    refine ⟨hvalid, fun s' hplays => ?_⟩
    obtain rfl := SnakeOutcome.plays.inj hplays
    exact .restarted s.segments frame.random hfresh
  | go steered =>
    have hsteered := h.onPolls hpolls
    by_cases hstop : (steered.paused || steered.gameOver) = true
    · have hframe : snakeFrame s frame = .plays steered := by
        rw [snakeFrame, hpolls]
        exact if_pos hstop
      rw [hframe]
      refine ⟨hsteered.1, fun s' hplays => ?_⟩
      obtain rfl := SnakeOutcome.plays.inj hplays
      obtain ⟨_, dir, paused, rfl⟩ := hsteered
      exact .waits (Bool.or_eq_true_iff.mp hstop) rfl rfl rfl rfl
    · have hover : steered.gameOver = false :=
        (Bool.or_eq_false_iff.mp (Bool.eq_false_iff.mpr hstop)).2
      obtain ⟨moved, hmove, hvalid, hmoves⟩ := hsteered.1.move_moves hover frame.random
      have hframe : snakeFrame s frame = .plays moved := by
        rw [snakeFrame, hpolls]
        exact (if_neg hstop).trans (congrArg SnakeOutcome.ofOption hmove)
      rw [hframe]
      refine ⟨hvalid, fun s' hplays => ?_⟩
      obtain rfl := SnakeOutcome.plays.inj hplays
      exact hsteered.goes hmoves

theorem SnakeOutcome.Sound.step {outcome : SnakeOutcome} (h : outcome.Sound) (frame : SnakeFrame) :
    (outcome.step frame).Sound := by
  cases outcome with
  | plays s => exact (snakeFrame_sound h frame).1
  | leaves => trivial
  | faults => exact h

/-- However the game is played it keeps to its arrays and to its rules. -/
theorem uiRunSnakeApp_valid {segments : List (Int × Int)}
    (hsize : segments.length = snakeMaxSegments) (random : Nat → UInt32)
    (frames : List SnakeFrame) :
    uiRunSnakeApp segments random frames ≠ .faults ∧
      ∀ s, uiRunSnakeApp segments random frames = .plays s → s.Valid ∧
        ∀ frame s', snakeFrame s frame = .plays s' → s.Goes s' := by
  obtain ⟨fresh, hfresh, hvalid⟩ := Snake.restart_valid hsize random
  have hstart : (SnakeOutcome.ofOption (snakeRestart segments random)).Sound := by
    rw [hfresh]
    exact hvalid
  have hsound : (uiRunSnakeApp segments random frames).Sound :=
    run_invariant (fun _ frame h => h.step frame) hstart frames
  constructor
  · intro hfaults
    rw [hfaults] at hsound
    exact hsound
  · intro s hplays
    rw [hplays] at hsound
    exact ⟨hsound, fun frame => (snakeFrame_sound hsound frame).2⟩

/-- A frame in which keys are pressed. -/
def keyFrame (chars : List UInt16) : SnakeFrame where
  polls := chars.map fun unicodeChar =>
    some { close := false, pause := false, restart := false, exit := false,
           key := some { scanCode := 0, unicodeChar } }
  random := fun n => n.toUInt32

/-- The keys `w` and `a` in one frame, where the second one would turn the snake back. -/
theorem uiRunSnakeApp_valid_turn :
    uiRunSnakeApp (List.replicate snakeMaxSegments (0, 0)) Nat.toUInt32 [keyFrame [119, 97]] ≠
        .faults ∧
      ∀ s, uiRunSnakeApp (List.replicate snakeMaxSegments (0, 0)) Nat.toUInt32
          [keyFrame [119, 97]] = .plays s → s.Valid ∧
        ∀ frame s', snakeFrame s frame = .plays s' → s.Goes s' :=
  uiRunSnakeApp_valid List.length_replicate Nat.toUInt32 [keyFrame [119, 97]]

end SnsxOS.Arm64
