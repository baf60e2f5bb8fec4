import IPv4Media.Library.Octets

/-! proto.h and site_type.h: channel numbers, datagram limits and the packed
layouts. The structures are packed, so an offset is the sum of the sizes before it,
and the one-element arrays data[1] and desc[1] count in sizeof. -/
namespace IPv4Media.Proto
open Octets

def channum : Nat := 200
def listchnid : UInt8 := 0
def minchnid : Nat := 1
def maxchnid : Nat := minchnid + channum - 1
def msgChannelMax : Nat := 2^16 - 20 - 8
def msgListMax : Nat := 2^16 - 20 - 8

def sizeofChnid : Nat := 1
def sizeofSeq : Nat := 4
def sizeofLen : Nat := 2

/- struct msg_channel_st: seq, chnid, data[1]. -/
def channelChnidOffset : Nat := sizeofSeq
def channelDataOffset : Nat := sizeofSeq + sizeofChnid
def sizeofMsgChannel : Nat := channelDataOffset + 1

/- struct msg_listentry_st: chnid, len, desc[1]. -/
def entryLenOffset : Nat := sizeofChnid
def entryDescOffset : Nat := sizeofChnid + sizeofLen
def sizeofMsgListentry : Nat := entryDescOffset + 1

/- struct msg_list_st: chnid, entry[1]. -/
def listEntryOffset : Nat := sizeofChnid
def sizeofMsgList : Nat := listEntryOffset + sizeofMsgListentry

-- The octets of a struct msg_channel_st whose data array holds data.
def msgChannel (o : ByteOrder) (seq : UInt32) (chnid : UInt8) (data : Bytes) : Bytes :=
  image o sizeofSeq seq.toNat ++ chnid :: data

def readSeq (o : ByteOrder) (buf : Bytes) : UInt32 := UInt32.ofNat (value o (buf.take sizeofSeq))
def readChnid (buf : Bytes) : UInt8 := buf.getD channelChnidOffset 0
def readData (buf : Bytes) (n : Nat) : Bytes := (buf.drop channelDataOffset).take n

@[simp] theorem msgChannelLength (o : ByteOrder) (seq : UInt32) (chnid : UInt8) (data : Bytes) :
    (msgChannel o seq chnid data).length = channelDataOffset + data.length := by
  simp [msgChannel,channelDataOffset,sizeofChnid]
  omega

theorem readMsgChannel (o : ByteOrder) (seq : UInt32) (chnid : UInt8) (data : Bytes) :
    readSeq o (msgChannel o seq chnid data) = seq ∧ readChnid (msgChannel o seq chnid data) = chnid ∧
    readData (msgChannel o seq chnid data) data.length = data := by
  have width : (image o sizeofSeq seq.toNat).length = sizeofSeq := imageLength o _ _
  refine ⟨?_,?_,?_⟩
  · have taken : (msgChannel o seq chnid data).take sizeofSeq = image o sizeofSeq seq.toNat :=
      List.take_left' width
    have bound : seq.toNat < 256^sizeofSeq := seq.toNat_lt
    rw [readSeq,taken,valueImage,Nat.mod_eq_of_lt bound]
    simp
  · simp [readChnid,msgChannel,channelChnidOffset,List.getD,width]
  · have dropped : (msgChannel o seq chnid data).drop channelDataOffset = data := by
      have split : msgChannel o seq chnid data = (image o sizeofSeq seq.toNat ++ [chnid]) ++ data := by
        simp [msgChannel]
      have size : (image o sizeofSeq seq.toNat ++ [chnid]).length = channelDataOffset := by
        simp [channelDataOffset,sizeofChnid]
      rw [split]
      exact List.drop_left' size
    rw [readData,dropped,List.take_length]

end IPv4Media.Proto
