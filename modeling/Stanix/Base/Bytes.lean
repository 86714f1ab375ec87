import Mathlib.Data.Nat.Bitwise

/-!
# Byte stores and packed fields

A store is a function from addresses to bytes. `ByteStore.write` puts a buffer at an address and
`ByteStore.read` gets one back; the lemmas say which addresses a write reaches. The second part is
about fields packed into machine words: what a mask keeps, and a bitwise or of a low field with a
shifted one, as arithmetic on the values, in the form in which `omega` uses it.
-/

namespace Stanix

/-- The content of a memory or a disk, byte by byte. -/
abbrev ByteStore := Nat → BitVec 8

namespace ByteStore

/-- The `n` bytes from address `a` on. -/
def read (m : ByteStore) (a n : Nat) : List (BitVec 8) :=
  (List.range n).map fun i => m (a + i)

/-- The store with the bytes of a buffer from address `a` on. -/
def write (m : ByteStore) (a : Nat) (buf : List (BitVec 8)) : ByteStore :=
  fun x => if x < a then m x else buf.getD (x - a) (m x)

variable {m : ByteStore} {a x : Nat} {buf : List (BitVec 8)}

/-- A write leaves what is below its buffer. -/
theorem write_of_lt (h : x < a) : m.write a buf x = m x := if_pos h

/-- A write leaves what is past its buffer. -/
theorem write_of_ge (h : a + buf.length ≤ x) : m.write a buf x = m x := by
  unfold write
  split
  · rfl
  exact List.getD_eq_default _ _ (by omega)

/-- A write puts byte `i` of the buffer at the `i`-th address. -/
theorem write_add {i : Nat} (h : i < buf.length) : m.write a buf (a + i) = buf[i] := by
  unfold write
  rw [if_neg (by omega), Nat.add_sub_cancel_left, List.getD_eq_getElem _ _ h]

/-- A write into another store gives the same bytes inside of the buffer. -/
theorem write_congr {m' : ByteStore} (h : a ≤ x) (h' : x < a + buf.length) :
    m.write a buf x = m'.write a buf x := by
  obtain ⟨i, rfl⟩ := Nat.exists_eq_add_of_le h
  rw [write_add (by omega), write_add (by omega)]

end ByteStore

/-! ## Packed fields -/

/-- A mask of `k` ones keeps the residue modulo `2 ^ k`. -/
theorem toNat_and_mask {w : Nat} (x m : BitVec w) (k : Nat) (hm : m.toNat = 2 ^ k - 1) :
    (x &&& m).toNat = x.toNat % 2 ^ k := by
  rw [BitVec.toNat_and, hm, Nat.and_two_pow_sub_one_eq_mod]

/-- The bitwise or of a value below `2 ^ k` with a multiple of `2 ^ k` is their sum. -/
theorem toNat_or_low {w : Nat} (lo hi : BitVec w) (k a : Nat) (hlo : lo.toNat < 2 ^ k)
    (hhi : hi.toNat = 2 ^ k * a) : (lo ||| hi).toNat = lo.toNat + 2 ^ k * a := by
  rw [BitVec.toNat_or, hhi, Nat.or_comm, ← Nat.two_pow_add_eq_or_of_lt hlo, add_comm]

/-- A byte below a number: the bytes of a little-endian field, put together. -/
theorem toNat_append_byte {w : Nat} (hi : BitVec w) (lo : BitVec 8) :
    (hi ++ lo).toNat = lo.toNat + 256 * hi.toNat := by
  rw [BitVec.toNat_append, ← Nat.shiftLeft_add_eq_or_of_lt lo.isLt]
  omega

end Stanix
