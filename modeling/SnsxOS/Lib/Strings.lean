import SnsxOS.Framework.PathTree
import SnsxOS.Framework.Bytes

/-!
# C strings of the kernels

The string routines shared by both editions, on the content of a string before its terminator.
Equality of contents stands for `strcmp(a, b) == 0`.
-/

namespace SnsxOS

open Framework

def slash : UInt8 := 47

/-- What `strcopy_limit(dst, src, limit)` leaves in `dst`. -/
def strcopyLimit (src : Bytes) (limit : Nat) : Bytes := src.take (limit - 1)

theorem strcopyLimit_of_lt {src : Bytes} {limit : Nat} (h : src.length < limit) :
    strcopyLimit src limit = src := List.take_of_length_le (by omega)

theorem length_strcopyLimit_lt (src : Bytes) {limit : Nat} (h : 0 < limit) :
    (strcopyLimit src limit).length < limit := by
  rw [strcopyLimit, List.length_take]
  omega

/-- What a listing of files shows of one of them. -/
structure FileNode (τ : Type*) where
  path : Bytes
  type : τ
  bytes : Bytes
  deriving DecidableEq

end SnsxOS
