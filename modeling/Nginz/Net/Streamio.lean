import Nginz.AroopTxt

/-! What a stream over a socket rests on: its descriptor, the results of `recv`, and the
buffer that `recv` writes to. -/
namespace Nginz

/-- `INVALID_FD`. -/
def invalidFd : ℤ := -1

/-- The result of `recv` on a client socket. -/
inductive RecvResult where
  | closed | error
  | data (bytes : Bytes)
  deriving DecidableEq, Repr

/-- The storage of a buffer that was requested with `size` bytes. -/
structure RecvBuffer (size : ℕ) where
  storage : Bytes
  roomy : size ≤ storage.length

namespace RecvBuffer
variable {size : ℕ}

/-- The buffer as the library hands it out. -/
def fresh (L : TxtLib) (size : ℕ) : RecvBuffer size :=
  ⟨List.replicate (L.room size) 0, by simpa using L.le_room size⟩

/-- `recv` with the capacity of the buffer: the bytes overwrite its front. -/
def recv (buffer : RecvBuffer size) (bytes : Bytes) : RecvBuffer size where
  storage := writeAt buffer.storage 0 (bytes.take buffer.storage.length)
  roomy := by
    rw [writeAt_length (by simp)]
    exact buffer.roomy

/-- `aroop_txt_zero_terminate` of a text of `len` bytes. -/
def terminate (buffer : RecvBuffer size) (len : ℕ) : RecvBuffer size where
  storage := buffer.storage.set len 0
  roomy := by
    rw [List.length_set]
    exact buffer.roomy

/-- What was received, its terminator, and what was in the buffer before. -/
theorem terminated (buffer : RecvBuffer size) {bytes : Bytes} (h : bytes.length < size) :
    ∃ stale, ((buffer.recv bytes).terminate bytes.length).storage = bytes ++ 0 :: stale := by
  have hroom : bytes.length < buffer.storage.length := lt_of_lt_of_le h buffer.roomy
  obtain ⟨old, stale, hrest⟩ : ∃ old stale, buffer.storage.drop bytes.length = old :: stale :=
    List.exists_cons_of_length_pos (by rw [List.length_drop]; omega)
  refine ⟨stale, ?_⟩
  have hwritten : (buffer.recv bytes).storage = bytes ++ old :: stale := by
    change writeAt buffer.storage 0 (bytes.take buffer.storage.length) = _
    rw [List.take_of_length_le hroom.le, writeAt, Nat.zero_add, hrest]
    rfl
  change (buffer.recv bytes).storage.set bytes.length 0 = _
  rw [hwritten, List.set_append_right _ _ le_rfl, Nat.sub_self]
  rfl

end RecvBuffer
end Nginz
