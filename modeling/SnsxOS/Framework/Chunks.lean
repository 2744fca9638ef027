import SnsxOS.Framework.Bytes

/-!
# Sending a stream in chunks

The symbols of each item go into a buffer of fixed size. Where they would leave no cell for a
terminator, the buffer is closed, sent and begun again. What is sent is the stream, cut only between
items.
-/

namespace SnsxOS.Framework

variable {α β : Type*}

/-- A buffer, the index of its next cell and the chunks sent from it. -/
structure ChunkBuffer (α : Type*) where
  cells : List α
  out : Nat
  sent : List (List α)

namespace ChunkBuffer

/-- A store at the index. There is no result where it misses the buffer. -/
def store (b : ChunkBuffer α) (a : α) : Option (ChunkBuffer α) :=
  if b.out < b.cells.length then some ⟨b.cells.set b.out a, b.out + 1, b.sent⟩ else none

def storeAll (b : ChunkBuffer α) : List α → Option (ChunkBuffer α)
  | [] => some b
  | a :: rest => (b.store a).bind fun b => b.storeAll rest

/-- A buffer of `n` cells that holds some symbols, with a cell left for the terminator. -/
structure Holds (stop : α) (n : Nat) (b : ChunkBuffer α) (symbols : List α) : Prop where
  size : b.cells.length = n
  out : b.out = symbols.length
  begins : b.cells.take b.out = symbols
  room : symbols.length < n
  clean : stop ∉ symbols

theorem take_set_self {cells : List α} {k : Nat} (h : k < cells.length) (a : α) :
    (cells.set k a).take (k + 1) = cells.take k ++ [a] := by
  have hlen : k < (cells.set k a).length := by simpa using h
  rw [List.take_add_one, List.getElem?_eq_getElem hlen, List.getElem_set_self,
    List.take_set_of_le le_rfl]
  rfl

variable {stop : α} {n : Nat} {b : ChunkBuffer α} {symbols : List α}

theorem Holds.store (h : Holds stop n b symbols) {a : α} (ha : a ≠ stop)
    (hroom : symbols.length + 1 < n) :
    ∃ b', b.store a = some b' ∧ b'.sent = b.sent ∧ Holds stop n b' (symbols ++ [a]) := by
  have hin : b.out < b.cells.length := by rw [h.size, h.out]; exact h.room
  refine ⟨⟨b.cells.set b.out a, b.out + 1, b.sent⟩, if_pos hin, rfl, ?_⟩
  constructor
  · simpa using h.size
  · simp [h.out]
  · rw [take_set_self hin, h.begins]
  · simpa using hroom
  · simp [h.clean, ha.symm]

theorem Holds.storeAll (h : Holds stop n b symbols) {more : List α} (hmore : stop ∉ more)
    (hroom : symbols.length + more.length < n) :
    ∃ b', b.storeAll more = some b' ∧ b'.sent = b.sent ∧ Holds stop n b' (symbols ++ more) := by
  induction more generalizing b symbols with
  | nil => exact ⟨b, rfl, rfl, by simpa using h⟩
  | cons a more ih =>
    rw [List.length_cons] at hroom
    have ha : a ≠ stop := fun heq => hmore (heq ▸ List.mem_cons_self)
    obtain ⟨next, hnext, hkept, hholds⟩ := h.store ha (by omega)
    have hrest : stop ∉ more := fun hmem => hmore (List.mem_cons_of_mem _ hmem)
    obtain ⟨b', hrun, hsent, hend⟩ := ih hholds hrest (by rw [List.length_append]; simp; omega)
    refine ⟨b', ?_, hsent.trans hkept, ?_⟩
    · rw [ChunkBuffer.storeAll, hnext, Option.bind_some, hrun]
    · simpa using hend

section Sending

variable [DecidableEq α]

/-- Close the chunk and send it. Its reader goes up to the first terminator, and there is no result
where it finds none. -/
def flush (stop : α) (b : ChunkBuffer α) : Option (ChunkBuffer α) :=
  (b.store stop).bind fun closed =>
    if stop ∈ closed.cells then
      some ⟨closed.cells, 0, closed.sent ++ [closed.cells.takeWhile (· != stop)]⟩
    else none

/-- Flush unless a number of symbols and a terminator have room. -/
def makeRoom (stop : α) (count : Nat) (b : ChunkBuffer α) : Option (ChunkBuffer α) :=
  if b.out + count ≥ b.cells.length then b.flush stop else some b

def put (stop : α) (symbols : List α) (b : ChunkBuffer α) : Option (ChunkBuffer α) :=
  (b.makeRoom stop symbols.length).bind fun b => b.storeAll symbols

/-- Put the symbols of one item after another and flush at the end. -/
def sendAll (stop : α) (encode : β → List α) (b : ChunkBuffer α) : List β → Option (List (List α))
  | [] => (b.flush stop).map sent
  | item :: items => (b.put stop (encode item)).bind fun b => b.sendAll stop encode items

/-- A flush sends what the buffer holds. -/
theorem Holds.flush (h : Holds stop n b symbols) :
    ∃ b', b.flush stop = some b' ∧ b'.sent = b.sent ++ [symbols] ∧ Holds stop n b' [] := by
  have hin : b.out < b.cells.length := by rw [h.size, h.out]; exact h.room
  have hclosed : b.store stop = some ⟨b.cells.set b.out stop, b.out + 1, b.sent⟩ := if_pos hin
  have hsplit : b.cells.set b.out stop = symbols ++ stop :: b.cells.drop (b.out + 1) := by
    rw [List.set_eq_take_append_cons_drop, if_pos hin, h.begins]
  have hmem : stop ∈ b.cells.set b.out stop := by rw [hsplit]; simp
  have hread : (b.cells.set b.out stop).takeWhile (· != stop) = symbols := by
    have hgo : ∀ a ∈ symbols, (a != stop) = true := by
      intro a ha
      exact bne_iff_ne.mpr fun heq => h.clean (heq ▸ ha)
    rw [hsplit, takeWhile_append_stop hgo (by simp)]
  refine ⟨⟨b.cells.set b.out stop, 0, b.sent ++ [symbols]⟩, ?_, rfl, ?_⟩
  · rw [ChunkBuffer.flush, hclosed, Option.bind_some, if_pos hmem, hread]
  · have hpos : 0 < n := Nat.zero_lt_of_lt h.room
    exact ⟨by simpa using h.size, rfl, rfl, hpos, List.not_mem_nil⟩

/-- What the buffer held before a put is still there with the new symbols behind it, or has been
sent. -/
theorem Holds.put (h : Holds stop n b symbols) {more : List α} (hmore : stop ∉ more)
    (hshort : more.length < n) :
    ∃ b', b.put stop more = some b' ∧
      (b'.sent = b.sent ∧ Holds stop n b' (symbols ++ more) ∨
        b'.sent = b.sent ++ [symbols] ∧ Holds stop n b' more) := by
  by_cases hfull : b.out + more.length ≥ b.cells.length
  · obtain ⟨emptied, hflush, hsent, hempty⟩ := h.flush
    obtain ⟨b', hrun, hkept, hend⟩ := hempty.storeAll hmore (by simpa using hshort)
    refine ⟨b', ?_, Or.inr ⟨hkept.trans hsent, hend⟩⟩
    rw [ChunkBuffer.put, makeRoom, if_pos hfull, hflush, Option.bind_some, hrun]
  · have hroom : symbols.length + more.length < n := by
      rw [h.size, h.out] at hfull
      omega
    obtain ⟨b', hrun, hkept, hend⟩ := h.storeAll hmore hroom
    refine ⟨b', ?_, Or.inl ⟨hkept, hend⟩⟩
    rw [ChunkBuffer.put, makeRoom, if_neg hfull, Option.bind_some, hrun]

/-- The chunks sent are the symbols of pieces that make up the items, and each leaves a cell for its
terminator. -/
theorem Holds.sendAll {encode : β → List α} {held items : List β}
    (h : Holds stop n b (held.flatMap encode))
    (hitems : ∀ item ∈ items, stop ∉ encode item ∧ (encode item).length < n) :
    ∃ pieces : List (List β), pieces.flatten = held ++ items ∧
      b.sendAll stop encode items = some (b.sent ++ pieces.map fun piece => piece.flatMap encode) ∧
      ∀ piece ∈ pieces, (piece.flatMap encode).length < n := by
  induction items generalizing b held with
  | nil =>
    obtain ⟨b', hrun, hsent, -⟩ := h.flush
    refine ⟨[held], by simp, ?_, ?_⟩
    · rw [ChunkBuffer.sendAll, hrun, Option.map_some, hsent]
      rfl
    · intro piece hpiece
      rw [List.mem_singleton.mp hpiece]
      exact h.room
  | cons item items ih =>
    have hitem := hitems item List.mem_cons_self
    have hrest : ∀ other ∈ items, stop ∉ encode other ∧ (encode other).length < n :=
      fun other hother => hitems other (List.mem_cons_of_mem _ hother)
    obtain ⟨next, hput, hnext⟩ := h.put hitem.1 hitem.2
    cases hnext with
    | inl hkept =>
      have hheld : Holds stop n next ((held ++ [item]).flatMap encode) := by
        simpa using hkept.2
      obtain ⟨pieces, hjoin, hrun, hshort⟩ := ih hheld hrest
      refine ⟨pieces, by simpa using hjoin, ?_, hshort⟩
      rw [ChunkBuffer.sendAll, hput, Option.bind_some, hrun, hkept.1]
    | inr hsent =>
      have hheld : Holds stop n next ([item].flatMap encode) := by simpa using hsent.2
      obtain ⟨pieces, hjoin, hrun, hshort⟩ := ih hheld hrest
      refine ⟨held :: pieces, by simp [hjoin], ?_, ?_⟩
      · rw [ChunkBuffer.sendAll, hput, Option.bind_some, hrun, hsent.1]
        simp
      · intro piece hpiece
        cases List.mem_cons.mp hpiece with
        | inl heq => exact heq ▸ h.room
        | inr hmem => exact hshort piece hmem

end Sending

end ChunkBuffer

end SnsxOS.Framework
