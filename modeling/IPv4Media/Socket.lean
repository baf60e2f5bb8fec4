import IPv4Media.Proto

/-! The receiving side of a UDP socket as both programs use it. recvfrom copies
a datagram over the front of the caller's buffer and leaves the rest as it was. -/
namespace IPv4Media.Socket
open Octets

structure SockAddr where
  addr : UInt32
  port : UInt16
  deriving DecidableEq, Repr

/-- A datagram that recvfrom returns whole into a buffer of MSG_CHANNEL_MAX octets. -/
structure Datagram where
  source : SockAddr
  bytes : Bytes
  fits : bytes.length ≤ Proto.msgChannelMax
  deriving DecidableEq, Repr

inductive RecvResult where
  | error (eintr : Bool)
  | datagram (d : Datagram)
  deriving DecidableEq, Repr

def RecvResult.len : RecvResult → Int
  | .error _ => -1
  | .datagram d => d.bytes.length

def deliver (buf bytes : Bytes) : Bytes := bytes ++ buf.drop bytes.length

@[simp] theorem deliverLength {buf bytes : Bytes} (room : bytes.length ≤ buf.length) :
    (deliver buf bytes).length = buf.length := by
  simp only [deliver,List.length_append,List.length_drop]
  omega

theorem deliverTake {buf bytes : Bytes} {n : Nat} (inside : n ≤ bytes.length) :
    (deliver buf bytes).take n = bytes.take n := by
  simp [deliver,List.take_append_of_le_length inside]

theorem deliverDrop {buf bytes : Bytes} {n : Nat} (inside : n ≤ bytes.length) :
    ((deliver buf bytes).drop n).take (bytes.length - n) = bytes.drop n := by
  rw [deliver,List.drop_append_of_le_length inside]
  exact List.take_left' List.length_drop

theorem deliverGetD {buf bytes : Bytes} {n : Nat} (inside : n < bytes.length) :
    (deliver buf bytes).getD n 0 = bytes.getD n 0 := by
  simp [deliver,List.getD,List.getElem?_append_left inside]

-- Conversion of an int to size_t, as a comparison with sizeof makes it.
def sizeT (n : Int) : Nat := (n % 2^64).toNat

theorem sizeTNat {n : Nat} (small : n < 2^64) : sizeT n = n := by
  have same : (n : Int) % 2^64 = n := Int.emod_eq_of_lt (by omega) (by exact_mod_cast small)
  rw [sizeT,same]
  rfl

end IPv4Media.Socket
