/-
  File:      Yuzu/FileSys/VirtualFile.lean
  Subject:   Files (core/file_sys/vfs) that are read into memory, and the numbers that memory holds.

  Memory is a byte for every offset from a pointer. A read copies as many bytes as the file has and
  leaves the rest of the buffer as it was.
-/
import Mathlib.Algebra.Order.Ring.Int

namespace Yuzu.FileSys

/-- The bytes from a pointer on. -/
abbrev Memory := Nat → UInt8

/-- `VirtualFile`, as far as it is read. -/
structure VirtualFile where
  size : Nat
  byte : Nat → UInt8

/-- `VfsFile::Read`, into a buffer. -/
def VirtualFile.read (f : VirtualFile) (offset size : Nat) (buffer : Memory) : Memory := fun k =>
  if k < size ∧ offset + k < f.size then f.byte (offset + k) else buffer k

/-- `VectorVfsFile::Write`: a file that ends before the range grows, and what lies between its end
and the range is zero. -/
def VirtualFile.write (f : VirtualFile) (offset length : Nat) (buffer : Memory) : VirtualFile where
  size := max f.size (offset + length)
  byte k :=
    if offset ≤ k ∧ k < offset + length then buffer (k - offset)
    else if k < f.size then f.byte k
    else 0

/-- `std::memcpy(dst + pos, src, size)`. -/
def memcpyAt (dst : Memory) (pos : Nat) (src : Memory) (size : Nat) : Memory := fun k =>
  if pos ≤ k ∧ k < pos + size then src (k - pos) else dst k

/-- The buffer after a function has been given a pointer into it. -/
def behind (data : Memory) (pos : Nat) (part : Memory) : Memory := fun k =>
  if pos ≤ k then part (k - pos) else data k

/-! ## Numbers -/

/-- An unsigned number of `n` bytes, the lowest first. -/
def getUnsigned (m : Memory) (offset : Nat) : Nat → Nat
  | 0 => 0
  | n + 1 => getUnsigned m offset n + (m (offset + n)).toNat * 256 ^ n

variable {m m' : Memory} {i i' n : Nat} {f : VirtualFile} {offset size pos : Nat} {buffer src dst : Memory}

theorem getUnsigned_congr (h : ∀ k < n, m (i + k) = m' (i' + k)) :
    getUnsigned m i n = getUnsigned m' i' n := by
  induction n with
  | zero => rfl
  | succ n ih =>
    rw [getUnsigned, getUnsigned, ih fun k hk => h k (Nat.lt_succ_of_lt hk), h n (Nat.lt_succ_self n)]

theorem memcpyAt_of_mem (hk : i < size) : memcpyAt dst pos src size (pos + i) = src i := by
  rw [memcpyAt, if_pos ⟨Nat.le_add_right _ _, Nat.add_lt_add_left hk _⟩, Nat.add_sub_cancel_left]

theorem memcpyAt_zero {dst : Memory} (hk : i < size) : memcpyAt dst 0 src size i = src i :=
  if_pos ⟨Nat.zero_le i, by omega⟩

theorem memcpyAt_of_not_mem (hout : i < pos ∨ pos + size ≤ i) :
    memcpyAt dst pos src size i = dst i := if_neg (by omega)

theorem memcpyAt_nothing : memcpyAt dst pos src 0 = dst :=
  funext fun _ => memcpyAt_of_not_mem (by omega)

theorem VirtualFile.read_of_lt (hk : i < size) (hfile : offset + size ≤ f.size) :
    f.read offset size buffer i = f.byte (offset + i) := if_pos ⟨hk, by omega⟩

theorem VirtualFile.read_of_ge (hk : size ≤ i) : f.read offset size buffer i = buffer i :=
  if_neg fun h => by omega

theorem behind_read (hfile : offset + size ≤ f.size) :
    behind buffer pos (f.read offset size fun k => buffer (pos + k)) =
      memcpyAt buffer pos (fun k => f.byte (offset + k)) size := by
  funext k
  by_cases hpos : pos ≤ k
  · obtain ⟨j, rfl⟩ := Nat.exists_eq_add_of_le hpos
    rw [behind, if_pos hpos, Nat.add_sub_cancel_left]
    by_cases hj : j < size
    · rw [VirtualFile.read_of_lt hj hfile, memcpyAt_of_mem hj]
    · rw [VirtualFile.read_of_ge (by omega), memcpyAt_of_not_mem (by omega)]
  · rw [behind, if_neg hpos, memcpyAt_of_not_mem (by omega)]

theorem VirtualFile.write_of_lt (hk : i < size) : (f.write offset size buffer).byte (offset + i) = buffer i := by
  rw [write]
  dsimp only
  rw [if_pos ⟨Nat.le_add_right _ _, Nat.add_lt_add_left hk _⟩, Nat.add_sub_cancel_left]

theorem VirtualFile.write_of_not_mem (hi : i < f.size) (hout : i < offset ∨ offset + size ≤ i) :
    (f.write offset size buffer).byte i = f.byte i := by
  rw [write]
  dsimp only
  rw [if_neg (by omega), if_pos hi]

/-- **The file has taken a text** for the places from `lo` to `hi`, and nothing else in it changed. -/
structure Writes (text : Memory) (lo hi : Nat) (before after : VirtualFile) : Prop where
  size : after.size = max before.size hi
  byte : ∀ k, lo ≤ k → k < hi → after.byte k = text k
  frame : ∀ k < before.size, k < lo ∨ hi ≤ k → after.byte k = before.byte k

theorem VirtualFile.write_writes {text : Memory} (h : ∀ k < size, buffer k = text (offset + k)) :
    Writes text offset (offset + size) f (f.write offset size buffer) where
  size := rfl
  byte k hlo hhi := by
    obtain ⟨j, rfl⟩ := Nat.exists_eq_add_of_le hlo
    rw [write_of_lt (by omega), h j (by omega)]
  frame k hk hout := write_of_not_mem hk hout

theorem Writes.trans {text : Memory} {lo mid hi : Nat} {f g h : VirtualFile} (hfg : Writes text lo mid f g)
    (hgh : Writes text mid hi g h) (hlo : lo ≤ mid) (hhi : mid ≤ hi) : Writes text lo hi f h where
  size := by
    rw [hgh.size, hfg.size]
    omega
  byte k hk hk' := by
    have hsize := hfg.size
    rcases Nat.lt_or_ge k mid with hmid | hmid
    · rw [hgh.frame k (by omega) (Or.inl hmid), hfg.byte k hk hmid]
    · exact hgh.byte k hmid hk'
  frame k hk hout := by
    have hsize := hfg.size
    rw [hgh.frame k (by omega) (by omega), hfg.frame k hk (by omega)]

end Yuzu.FileSys
