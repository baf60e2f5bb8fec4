import IPv4Media.ChannelSender
import IPv4Media.Receiver

/-! seq crosses the network in the sender's byte order (thr_channel.c) and is read in
the receiver's (recv_thr.c); chnid and data are octets. Between hosts of different
order every sequence number arrives with its octets turned round. -/
namespace IPv4Media.HostOrder
open Octets Proto Socket Receiver

structure Portable (server client : ByteOrder) (source : SockAddr) (buf : Bytes) (seq : UInt32) (chnid : UInt8)
    (data : Bytes) : Prop where
  accepted : verdict ⟨client,chnid.toNat,source⟩ source (msgChannel server seq chnid data).length
    (deliver buf (msgChannel server seq chnid data)) = .chosen
  sameSeq : readSeq client (deliver buf (msgChannel server seq chnid data)) = seq
  sameChnid : readChnid (deliver buf (msgChannel server seq chnid data)) = chnid
  sameData : readData (deliver buf (msgChannel server seq chnid data))
    (dataLen (msgChannel server seq chnid data).length) = data
  consecutive : ∀ t later,
    (track (track t (readSeq client (deliver buf (msgChannel server seq chnid data))))
      (readSeq client (deliver buf (msgChannel server (seq + 1) chnid later)))).packetLossCount =
    (track t (readSeq client (deliver buf (msgChannel server seq chnid data)))).packetLossCount

/- seq as the receiver reads it, whatever it held in its buffer before. -/
def crossed (server client : ByteOrder) (seq : UInt32) : UInt32 :=
  UInt32.ofNat (value client (image server sizeofSeq seq.toNat))

theorem seqCrossed (server client : ByteOrder) (buf : Bytes) (seq : UInt32) (chnid : UInt8) (data : Bytes) :
    readSeq client (deliver buf (msgChannel server seq chnid data)) = crossed server client seq := by
  have width : (image server sizeofSeq seq.toNat).length = sizeofSeq := imageLength server _ _
  have front : (msgChannel server seq chnid data).take sizeofSeq = image server sizeofSeq seq.toNat :=
    List.take_left' width
  have long : sizeofSeq ≤ (msgChannel server seq chnid data).length := by
    rw [msgChannelLength,channelDataOffset]
    omega
  rw [readSeq,deliverTake long,front,crossed]

theorem crossedSame (o : ByteOrder) (seq : UInt32) : crossed o o seq = seq := by
  have bound : seq.toNat < 256^sizeofSeq := seq.toNat_lt
  rw [crossed,valueImage,Nat.mod_eq_of_lt bound]
  simp

def turned (n : Nat) : Nat :=
  n / 16777216 % 256 + 256 * (n / 65536 % 256) + 65536 * (n / 256 % 256) + 16777216 * (n % 256)

theorem turnedValue (n : Nat) : littleValue (littleImage sizeofSeq n).reverse = turned n := by
  simp only [sizeofSeq,littleImage,List.reverse_cons,List.reverse_nil,List.nil_append,List.cons_append,littleValue,
    UInt8.toNat_ofNat',turned]
  have two : n / 256 / 256 = n / 65536 := by omega
  have three : n / 65536 / 256 = n / 16777216 := by omega
  rw [two,three]
  omega

theorem turnedDigits {a b c d : Nat} (ha : a < 256) (hb : b < 256) (hc : c < 256) (hd : d < 256) :
    turned (a + 256 * b + 65536 * c + 16777216 * d) = d + 256 * c + 65536 * b + 16777216 * a := by
  unfold turned
  omega

/- Only 2^32 - 1 keeps its successor: a step in the first octet weighs 2^24, and each
carry on the way to the last one less. -/
theorem turnedStep {a b c d n : Nat} (ha : a < 256) (hb : b < 256) (hc : c < 256) (hd : d < 256)
    (digits : n = a + 256 * b + 65536 * c + 16777216 * d) :
    turned ((n + 1) % 2^32) = (turned n + 1) % 2^32 ↔ n = 2^32 - 1 := by
  have here : turned n = d + 256 * c + 65536 * b + 16777216 * a := by
    rw [digits]
    exact turnedDigits ha hb hc hd
  by_cases carryA : a = 255
  · by_cases carryB : b = 255
    · by_cases carryC : c = 255
      · by_cases carryD : d = 255
        · have wraps : n = 2^32 - 1 := by omega
          rw [wraps]
          exact iff_of_true rfl rfl
        · have next : (n + 1) % 2^32 = 0 + 256 * 0 + 65536 * 0 + 16777216 * (d + 1) := by omega
          rw [next,turnedDigits (by omega) (by omega) (by omega) (by omega),here]
          omega
      · have next : (n + 1) % 2^32 = 0 + 256 * 0 + 65536 * (c + 1) + 16777216 * d := by omega
        rw [next,turnedDigits (by omega) (by omega) (by omega) (by omega),here]
        omega
    · have next : (n + 1) % 2^32 = 0 + 256 * (b + 1) + 65536 * c + 16777216 * d := by omega
      rw [next,turnedDigits (by omega) (by omega) (by omega) (by omega),here]
      omega
  · have next : (n + 1) % 2^32 = (a + 1) + 256 * b + 65536 * c + 16777216 * d := by omega
    rw [next,turnedDigits (by omega) (by omega) (by omega) (by omega),here]
    omega

theorem turnedNext {n : Nat} (small : n < 2^32) :
    turned ((n + 1) % 2^32) = (turned n + 1) % 2^32 ↔ n = 2^32 - 1 :=
  @turnedStep (n % 256) (n / 256 % 256) (n / 65536 % 256) (n / 16777216) n (by omega) (by omega) (by omega) (by omega)
    (by omega)

theorem crossedTurned {server client : ByteOrder} (apart : server ≠ client) (seq : UInt32) :
    (crossed server client seq).toNat = turned seq.toNat := by
  have same : value client (image server sizeofSeq seq.toNat) =
      littleValue (littleImage sizeofSeq seq.toNat).reverse := by
    cases server <;> cases client <;> first | exact absurd rfl apart | rfl
  rw [crossed,same,turnedValue,UInt32.toNat_ofNat']
  refine Nat.mod_eq_of_lt ?_
  unfold turned
  omega

theorem crossedNext {server client : ByteOrder} (apart : server ≠ client) (seq : UInt32) :
    crossed server client (seq + 1) = crossed server client seq + 1 ↔ seq = 0xFFFFFFFF := by
  have next := turnedNext seq.toNat_lt
  rw [← UInt32.toNat_inj,← UInt32.toNat_inj,UInt32.toNat_add,crossedTurned apart,crossedTurned apart,UInt32.toNat_add]
  exact next

theorem crossedLast {server client : ByteOrder} (apart : server ≠ client) :
    crossed server client 0xFFFFFFFF = 0xFFFFFFFF := by
  rw [← UInt32.toNat_inj,crossedTurned apart]
  rfl

theorem trackSecond (t : SeqTracker) (first second : UInt32) :
    (track (track t first) second).packetLossCount = (track t first).packetLossCount ↔ second = first + 1 := by
  have after : (track t first).expectedSeq = first + 1 ∧ (track t first).firstPacket = false := by
    unfold track
    split
    · exact ⟨rfl,rfl⟩
    · rename_i started
      split <;> exact ⟨rfl,Bool.eq_false_iff.mpr started⟩
  obtain ⟨_,_,loss⟩ := trackNext after.2 second
  rw [after.1] at loss
  constructor
  · intro same
    rw [same] at loss
    grind
  · intro next
    have same : (track (track t first) second).packetLossCount.toUInt32 = (track t first).packetLossCount.toUInt32 := by
      rw [loss,next]
      simp
    rw [← Int32.toInt32_toUInt32 (track (track t first) second).packetLossCount,same,Int32.toInt32_toUInt32]

theorem octetsKept (server client : ByteOrder) (source : SockAddr) (buf : Bytes) (seq : UInt32) (chnid : UInt8)
    {data : Bytes} (size : 1 ≤ data.length) (short : data.length ≤ ChannelSender.readSize) :
    verdict ⟨client,chnid.toNat,source⟩ source (msgChannel server seq chnid data).length
      (deliver buf (msgChannel server seq chnid data)) = .chosen ∧
    readChnid (deliver buf (msgChannel server seq chnid data)) = chnid ∧
    readData (deliver buf (msgChannel server seq chnid data))
      (dataLen (msgChannel server seq chnid data).length) = data := by
  have length := msgChannelLength server seq chnid data
  have fits : (msgChannel server seq chnid data).length ≤ msgChannelMax := by
    rw [length]
    simp only [ChannelSender.readSize,channelDataOffset,sizeofSeq,sizeofChnid,msgChannelMax] at short ⊢
    omega
  have long : sizeofMsgChannel ≤ (msgChannel server seq chnid data).length := by
    rw [length,sizeofMsgChannel]
    omega
  have passes : chosen ⟨client,chnid.toNat,source⟩ ⟨source,msgChannel server seq chnid data,fits⟩ = true := by
    simp only [chosen,decide_eq_true_eq]
    exact ⟨trivial,long,congrArg (fun id : UInt8 => (id.toNat : Int)) (readMsgChannel server seq chnid data).2.1⟩
  refine ⟨(verdictChosen _ buf _).mpr passes,?_,?_⟩
  · rw [readChnidDelivered long]
    exact (readMsgChannel server seq chnid data).2.1
  · exact (readDataDelivered buf passes).trans (ChannelSender.payloadSent server seq chnid data)

theorem hostOrder (server client : ByteOrder) (source : SockAddr) (buf : Bytes) (seq : UInt32) (chnid : UInt8)
    {data : Bytes} (size : 1 ≤ data.length) (short : data.length ≤ ChannelSender.readSize) :
    Portable server client source buf seq chnid data ↔ server = client ∨ seq = 0xFFFFFFFF := by
  have here := seqCrossed server client buf seq chnid data
  have next : ∀ later, readSeq client (deliver buf (msgChannel server (seq + 1) chnid later)) =
      crossed server client (seq + 1) := fun later => seqCrossed server client buf (seq + 1) chnid later
  constructor
  · intro portable
    by_cases apart : server = client
    · exact .inl apart
    · have follows := portable.consecutive .initial []
      rw [next,here,trackSecond] at follows
      exact .inr ((crossedNext apart seq).mp follows)
  · intro kept
    have right : crossed server client seq = seq ∧ crossed server client (seq + 1) = crossed server client seq + 1 := by
      by_cases apart : server = client
      · subst apart
        rw [crossedSame,crossedSame]
        exact ⟨rfl,rfl⟩
      · have last := kept.resolve_left apart
        refine ⟨?_,(crossedNext apart seq).mpr last⟩
        rw [last]
        exact crossedLast apart
    obtain ⟨accepted,sameChnid,sameData⟩ := octetsKept server client source buf seq chnid size short
    refine ⟨accepted,here.trans right.1,sameChnid,sameData,?_⟩
    intro t later
    rw [next,here]
    exact (trackSecond t _ _).mpr right.2

theorem samePortable : Portable .big .big ⟨1,1989⟩ [9,9] 7 3 [5] :=
  (@hostOrder .big .big ⟨1,1989⟩ [9,9] 7 3 [5] (by decide) (by decide)).mpr (.inl rfl)

/- A little-endian server and a big-endian client: number 1 arrives as 2^24. -/
theorem crossedOne : readSeq .big (deliver [] (msgChannel .little 1 3 [5])) = 16777216 ∧
    ¬ Portable .little .big ⟨1,1989⟩ [] 1 3 [5] := by
  refine ⟨by decide,?_⟩
  intro portable
  exact absurd portable.sameSeq (by decide)

end IPv4Media.HostOrder
