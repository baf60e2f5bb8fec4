import IPv4Media.Socket
import Mathlib.Data.List.Induction

/-! The data side of receiver_thread (recv_thr.c): the four early exits before a
datagram counts, the sequence tracker kept in three file-scope variables, and the
fields read from the buffer. What a thread does with them is ClientThreads. -/
namespace IPv4Media.Receiver
open Octets Proto Socket

/- What main fixes before it starts the threads. The byte order is the host's. -/
structure Session where
  order : ByteOrder
  chosenChannel : Int
  serverAddr : SockAddr
  deriving DecidableEq, Repr

structure SeqTracker where
  expectedSeq : UInt32
  firstPacket : Bool
  packetLossCount : Int32
  deriving DecidableEq, Repr

def SeqTracker.initial : SeqTracker := ⟨0,true,0⟩

/- packet_loss_count is an int and the difference is unsigned, so the sum is made
modulo 2^32 and stored back. -/
def track (t : SeqTracker) (seq : UInt32) : SeqTracker :=
  if t.firstPacket then { t with expectedSeq := seq + 1, firstPacket := false }
  else if seq ≠ t.expectedSeq then
    { t with packetLossCount := (t.packetLossCount.toUInt32 + (seq - t.expectedSeq)).toInt32,
             expectedSeq := seq + 1 }
  else { t with expectedSeq := seq + 1 }

theorem trackNext {t : SeqTracker} (started : t.firstPacket = false) (seq : UInt32) :
    (track t seq).expectedSeq = seq + 1 ∧ (track t seq).firstPacket = false ∧
    (track t seq).packetLossCount.toUInt32 = t.packetLossCount.toUInt32 + (seq - t.expectedSeq) := by
  unfold track
  rw [started]
  by_cases gap : seq = t.expectedSeq
  · simp [gap]
  · simp [gap]

theorem trackRun (first : UInt32) (rest : List UInt32) :
    ((first::rest).foldl track .initial).expectedSeq = rest.getLastD first + 1 ∧
    ((first::rest).foldl track .initial).firstPacket = false ∧
    ((first::rest).foldl track .initial).packetLossCount.toUInt32 =
      rest.getLastD first - first - UInt32.ofNat rest.length := by
  induction rest using List.reverseRecOn with
  | nil =>
    refine ⟨rfl,rfl,?_⟩
    rw [List.getLastD_nil,UInt32.sub_self]
    rfl
  | append_singleton rest seq ih =>
    obtain ⟨expected,started,loss⟩ := ih
    obtain ⟨next,on,counted⟩ := trackNext started seq
    rw [← List.cons_append,List.foldl_append,List.foldl_cons,List.foldl_nil,List.getLastD_concat]
    refine ⟨next,on,?_⟩
    rw [counted,expected,loss,List.length_append,List.length_singleton,UInt32.ofNat_add]
    grind

inductive Verdict where
  | addrNotMatch | portNotMatch | tooShort | otherChannel | chosen
  deriving DecidableEq, Repr

def verdict (se : Session) (raddr : SockAddr) (len : Nat) (buf : Bytes) : Verdict :=
  if raddr.addr ≠ se.serverAddr.addr then .addrNotMatch
  else if raddr.port ≠ se.serverAddr.port then .portNotMatch
  else if sizeT len < sizeofMsgChannel then .tooShort
  else if ((readChnid buf).toNat : Int) = se.chosenChannel then .chosen
  else .otherChannel

def dataLen (len : Nat) : Nat := len - sizeofChnid - sizeofSeq

def chosen (se : Session) (d : Datagram) : Bool :=
  decide (d.source = se.serverAddr ∧ sizeofMsgChannel ≤ d.bytes.length ∧
    ((readChnid d.bytes).toNat : Int) = se.chosenChannel)

def payload (d : Datagram) : Bytes := d.bytes.drop channelDataOffset
def seqOf (se : Session) (d : Datagram) : UInt32 := readSeq se.order d.bytes

theorem chosenSource {se d} (h : chosen se d = true) :
    d.source = se.serverAddr ∧ sizeofMsgChannel ≤ d.bytes.length ∧
    ((readChnid d.bytes).toNat : Int) = se.chosenChannel := by
  simpa only [chosen,decide_eq_true_eq] using h

theorem datagramSize (d : Datagram) : sizeT d.bytes.length = d.bytes.length := by
  have fits := d.fits
  have max : Proto.msgChannelMax < 2^64 := by decide
  exact sizeTNat (by omega)

theorem readChnidDelivered {buf bytes : Bytes} (long : sizeofMsgChannel ≤ bytes.length) :
    readChnid (deliver buf bytes) = readChnid bytes := by
  have offset : channelChnidOffset < sizeofMsgChannel := by decide
  exact deliverGetD (by omega)

theorem verdictChosen (se : Session) (buf : Bytes) (d : Datagram) :
    verdict se d.source d.bytes.length (deliver buf d.bytes) = .chosen ↔ chosen se d = true := by
  unfold verdict
  rw [datagramSize]
  constructor
  · intro h
    split at h <;> try contradiction
    rename_i addr
    split at h <;> try contradiction
    rename_i port
    split at h <;> try contradiction
    rename_i long
    split at h <;> try contradiction
    rename_i channel
    have enough : sizeofMsgChannel ≤ d.bytes.length := by omega
    rw [readChnidDelivered enough] at channel
    have same : d.source = se.serverAddr := by
      cases hs : d.source
      cases ht : se.serverAddr
      simp only [hs,ht,ne_eq,not_not] at addr port
      rw [addr,port]
    simp only [chosen,decide_eq_true_eq]
    exact ⟨same,enough,channel⟩
  · intro h
    obtain ⟨source,long,channel⟩ := chosenSource h
    rw [source,readChnidDelivered long,channel]
    simp only [ne_eq,not_true_eq_false,if_false,if_true]
    exact if_neg (by omega)

theorem dataLenPayload (d : Datagram) : dataLen d.bytes.length = (payload d).length := by
  simp only [dataLen,payload,List.length_drop,channelDataOffset]
  omega

theorem readDataDelivered {se d} (buf : Bytes) (h : chosen se d = true) :
    readData (deliver buf d.bytes) (dataLen d.bytes.length) = payload d := by
  have long := (chosenSource h).2.1
  have offset : channelDataOffset < sizeofMsgChannel := by decide
  have size := dataLenPayload d
  simp only [payload,List.length_drop] at size
  rw [readData,size]
  exact deliverDrop (by omega)

theorem readSeqDelivered {se d} (buf : Bytes) (h : chosen se d = true) :
    readSeq se.order (deliver buf d.bytes) = seqOf se d := by
  have long := (chosenSource h).2.1
  have offset : sizeofSeq < sizeofMsgChannel := by decide
  rw [readSeq,deliverTake (by omega)]
  rfl

end IPv4Media.Receiver
