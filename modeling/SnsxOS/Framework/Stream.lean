import Mathlib.Data.List.Basic
import Mathlib.Tactic

/-!
# Streams received in pieces

A stream is sent as pieces, each a position and a length. A receiver that only accepts the piece
at its own position has, at every moment, received everything before that position, whatever was
lost, repeated or delivered out of order. Positions travel as 32-bit sequence numbers counted
from a start value.
-/

namespace SnsxOS.Framework

structure Piece where
  offset : Nat
  length : Nat
  deriving DecidableEq

/-- Accept the piece at the current position, ignore every other one. -/
def advance (pos : Nat) (piece : Piece) : Nat :=
  if piece.offset = pos then pos + piece.length else pos

/-- Every position below `k` lies in one of the pieces. -/
def Covered (pieces : List Piece) (k : Nat) : Prop :=
  ∀ i < k, ∃ piece ∈ pieces, piece.offset ≤ i ∧ i < piece.offset + piece.length

theorem Covered.zero (pieces : List Piece) : Covered pieces 0 := by
  intro i hi
  omega

theorem Covered.mono {pieces pieces' : List Piece} {k k' : Nat} (h : Covered pieces k)
    (hsub : pieces ⊆ pieces') (hk : k' ≤ k) : Covered pieces' k' := by
  intro i hi
  obtain ⟨piece, hp, hrange⟩ := h i (by omega)
  exact ⟨piece, hsub hp, hrange⟩

theorem Covered.snoc {pieces : List Piece} {k : Nat} (h : Covered pieces k) (piece : Piece) :
    Covered (pieces ++ [piece]) (advance k piece) := by
  intro i hi
  rw [advance] at hi
  by_cases hik : i < k
  · exact h.mono (List.subset_append_left _ _) le_rfl i hik
  · refine ⟨piece, by simp, ?_⟩
    split at hi
    · omega
    · omega

/-- What lies before the receiver's position has been received. -/
theorem covered_foldl_advance (pieces : List Piece) :
    Covered pieces (pieces.foldl advance 0) := by
  induction pieces using List.reverseRecOn with
  | nil => exact Covered.zero _
  | append_singleton pieces piece ih =>
    rw [List.foldl_append]
    exact ih.snoc piece

/-- The sequence number of a position. -/
def seqAt (start : UInt32) (pos : Nat) : UInt32 := start + UInt32.ofNat pos

/-- The position, below 2^32, of a sequence number. -/
def seqOffset (start seq : UInt32) : Nat := (seq - start).toNat

@[simp] theorem seqAt_zero (start : UInt32) : seqAt start 0 = start := by
  simp [seqAt]

theorem seqAt_add (start : UInt32) (pos n : Nat) :
    seqAt start pos + UInt32.ofNat n = seqAt start (pos + n) := by
  rw [seqAt, seqAt, UInt32.ofNat_add, UInt32.add_assoc]

theorem seqAt_seqOffset (start seq : UInt32) : seqAt start (seqOffset start seq) = seq := by
  rw [seqAt, seqOffset, UInt32.ofNat_toNat, UInt32.add_comm, UInt32.sub_add_cancel]

theorem seqOffset_seqAt (start : UInt32) {pos : Nat} (h : pos < 2 ^ 32) :
    seqOffset start (seqAt start pos) = pos := by
  rw [seqAt, seqOffset, UInt32.add_comm, UInt32.add_sub_cancel, UInt32.toNat_ofNat']
  exact Nat.mod_eq_of_lt h

/-- Positions below 2^32 are told apart by their sequence numbers. -/
theorem seqAt_eq_iff (start seq : UInt32) {pos : Nat} (h : pos < 2 ^ 32) :
    seq = seqAt start pos ↔ seqOffset start seq = pos := by
  constructor
  · intro he
    rw [he, seqOffset_seqAt start h]
  · intro he
    rw [← he, seqAt_seqOffset]

section Consecutive

variable {α : Type*}

/-- The bytes that the segments carry, one after the other. -/
def streamOf (segments : List (UInt32 × List α)) : List α := (segments.map Prod.snd).flatten

/-- Every segment is numbered by the start value and the length of what comes before it. -/
def Consecutive (start : UInt32) (segments : List (UInt32 × List α)) : Prop :=
  ∀ k segment, segments[k]? = some segment →
    segment.1 = seqAt start (streamOf (segments.take k)).length

theorem streamOf_snoc (segments : List (UInt32 × List α)) (seq : UInt32) (piece : List α) :
    streamOf (segments ++ [(seq, piece)]) = streamOf segments ++ piece := by
  simp [streamOf]

theorem Consecutive.nil (start : UInt32) : Consecutive start ([] : List (UInt32 × List α)) := by
  intro k segment h
  simp at h

/-- The next segment is numbered behind the last one. -/
theorem Consecutive.snoc {start : UInt32} {segments : List (UInt32 × List α)}
    (h : Consecutive start segments) (piece : List α) :
    Consecutive start
      (segments ++ [(seqAt start (streamOf segments).length, piece)]) := by
  intro k segment hk
  by_cases hlt : k < segments.length
  · rw [List.getElem?_append_left hlt] at hk
    rw [List.take_append_of_le_length hlt.le]
    exact h k segment hk
  · obtain rfl : k = segments.length := by
      have hbound := (List.getElem?_eq_some_iff.mp hk).1
      rw [List.length_append, List.length_singleton] at hbound
      omega
    rw [List.getElem?_concat_length] at hk
    rw [List.take_left, ← Option.some.inj hk]

end Consecutive

end SnsxOS.Framework
