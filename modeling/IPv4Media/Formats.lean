import IPv4Media.ChannelSender
import IPv4Media.ClientThreads
import IPv4Media.ListReception

/-! The two formats the server sends from one socket to one port, and what each of the
client's two readers makes of the other's. msg_list_st has its chnid at offset 0, but
msg_channel_st has seq there and its chnid behind it, where the list has text. -/
namespace IPv4Media.Formats
open Octets Proto Socket Receiver ClientThreads MediaLibrary ListCodec ListReception

inductive Arrival where
  | list (entries : List MlibListentry) (fits : totalsize entries ≤ msgListMax)
  | channel (chnid : UInt8) (seq : UInt32) (data : Bytes)
      (id : minchnid ≤ chnid.toNat ∧ chnid.toNat ≤ maxchnid) (short : data.length ≤ ChannelSender.readSize)

def isList : Arrival → Bool
  | .list .. => true
  | .channel .. => false

/- The octets sendto reads from thr_list's buffer. -/
def listOctets (o : ByteOrder) (entries : List MlibListentry) : Bytes :=
  ((thrListBuffer o entries).getD []).filterMap id

def octets (o : ByteOrder) : Arrival → Bytes
  | .list entries _ => listOctets o entries
  | .channel chnid seq data _ _ => msgChannel o seq chnid data

theorem listOctetsEncoded (o : ByteOrder) (entries : List MlibListentry) :
    listOctets o entries = encodeList entries := by
  rw [listOctets,thrListFilled]
  simp [filled,fresh]

theorem octetsFit (o : ByteOrder) (a : Arrival) : (octets o a).length ≤ msgChannelMax := by
  cases a with
  | list entries fits =>
    rw [octets,listOctetsEncoded,← totalsizeEncoded]
    exact fits
  | channel chnid seq data id short =>
    rw [octets,msgChannelLength]
    simp only [ChannelSender.readSize] at short
    simp only [channelDataOffset,sizeofSeq,sizeofChnid,msgChannelMax]
    omega

def datagram (o : ByteOrder) (server : SockAddr) (a : Arrival) : Datagram := ⟨server,octets o a,octetsFit o a⟩
def result (o : ByteOrder) (server : SockAddr) (a : Arrival) : RecvResult := .datagram (datagram o server a)

-- The first octet of seq in the sender's memory.
def firstOctet (o : ByteOrder) (seq : UInt32) : UInt8 := (image o sizeofSeq seq.toNat).getD 0 0

theorem channelTaken (o : ByteOrder) (chnid : UInt8) (seq : UInt32) (data : Bytes) :
    takenForList (msgChannel o seq chnid data) = decide (firstOctet o seq = listchnid) := by
  have width : (image o sizeofSeq seq.toNat).length = sizeofSeq := imageLength o _ _
  have long : sizeofMsgList ≤ (msgChannel o seq chnid data).length := by
    rw [msgChannelLength]
    simp only [channelDataOffset,sizeofMsgList,listEntryOffset,sizeofMsgListentry,entryDescOffset,sizeofSeq,
      sizeofChnid,sizeofLen]
    omega
  have first : (msgChannel o seq chnid data).getD 0 0 = firstOctet o seq := by
    rw [msgChannel,firstOctet,List.getD,List.getD,List.getElem?_append_left (by rw [width]; decide)]
  rw [takenForList,first]
  simp only [long,true_and]

def BreaksOnList (o : ByteOrder) (server : SockAddr) (msgList : Bytes) (serverAddr : SockAddr)
    (arrivals : List Arrival) : Prop :=
  ∀ b, mainLoop msgList serverAddr (arrivals.map (result o server)) = some b →
    ∃ a, arrivals[b.index]? = some a ∧ isList a = true

def beforeList (o : ByteOrder) (arrivals : List Arrival) : List Arrival :=
  arrivals.takeWhile fun a => !(isList a && takenForList (octets o a))

theorem breaksHere {o : ByteOrder} {server : SockAddr} {msgList : Bytes} {serverAddr : SockAddr} {a : Arrival}
    {arrivals : List Arrival} (taken : takenForList (octets o a) = true) :
    BreaksOnList o server msgList serverAddr (a :: arrivals) ↔ isList a = true := by
  unfold BreaksOnList
  rw [List.map_cons,result,mainLoopDatagram]
  simp only [datagram,taken,if_true,Option.some.injEq]
  constructor
  · intro breaks
    obtain ⟨b,there,kind⟩ := breaks _ rfl
    cases Option.some.inj there
    exact kind
  · rintro kind b rfl
    exact ⟨a,rfl,kind⟩

theorem breaksLater {o : ByteOrder} {server : SockAddr} {msgList : Bytes} {serverAddr : SockAddr} {a : Arrival}
    {arrivals : List Arrival} (passed : takenForList (octets o a) = false) :
    BreaksOnList o server msgList serverAddr (a :: arrivals) ↔
      BreaksOnList o server (deliver msgList (octets o a)) server arrivals := by
  unfold BreaksOnList
  rw [List.map_cons,result,mainLoopDatagram]
  simp only [datagram,passed,Bool.false_eq_true,if_false]
  constructor
  · intro breaks b looped
    exact breaks b.later (by rw [looped]; rfl)
  · intro breaks b looped
    obtain ⟨inner,found,rfl⟩ := Option.map_eq_some_iff.mp looped
    exact breaks inner found

theorem beforeCons (o : ByteOrder) (a : Arrival) (arrivals : List Arrival) :
    beforeList o (a :: arrivals) =
      if isList a = true ∧ takenForList (octets o a) = true then [] else a :: beforeList o arrivals := by
  rw [beforeList,List.takeWhile_cons]
  cases isList a <;> cases takenForList (octets o a) <;> rfl

theorem listBreaksOnly (o : ByteOrder) (server : SockAddr) (msgList : Bytes) (serverAddr : SockAddr)
    (arrivals : List Arrival) : BreaksOnList o server msgList serverAddr arrivals ↔
      ∀ chnid seq data id short, .channel chnid seq data id short ∈ beforeList o arrivals →
        firstOctet o seq ≠ listchnid := by
  induction arrivals generalizing msgList serverAddr with
  | nil => simp [BreaksOnList,mainLoop,beforeList]
  | cons a arrivals ih =>
    rw [beforeCons]
    cases taken : takenForList (octets o a) with
    | true =>
      rw [breaksHere taken]
      cases a with
      | list entries fits => simp [isList]
      | channel chnid seq data id short =>
        rw [octets,channelTaken,decide_eq_true_eq] at taken
        simp only [isList,Bool.false_eq_true,false_and,if_false,false_iff]
        intro clear
        exact clear chnid seq data id short (List.mem_cons_self) taken
    | false =>
      rw [breaksLater taken,ih]
      simp only [Bool.false_eq_true,and_false,if_false]
      constructor
      · intro clear chnid seq data id short member
        rcases List.mem_cons.mp member with rfl | later
        · rw [octets,channelTaken,decide_eq_false_iff_not] at taken
          exact taken
        · exact clear chnid seq data id short later
      · intro clear chnid seq data id short later
        exact clear chnid seq data id short (List.mem_cons_of_mem _ later)

def sampleServer : SockAddr := ⟨1,1989⟩

def firstDatagram : Arrival := .channel 1 0 [7] (by decide) (by decide)

theorem firstDatagramTaken : ∃ b, mainLoop [] ⟨0,0⟩ ([firstDatagram].map (result .little sampleServer)) = some b ∧
    isList firstDatagram = false ∧ b.len = 6 ∧ ¬ BreaksOnList .little sampleServer [] ⟨0,0⟩ [firstDatagram] := by
  refine ⟨_,rfl,rfl,rfl,?_⟩
  intro breaks
  obtain ⟨a,there,kind⟩ := breaks _ rfl
  cases Option.some.inj there
  cases kind

/- Where the receiver looks for chnid the list has the first octet of its first
description, or that description's terminator. -/
theorem listChnid (e : MlibListentry) (entries : List MlibListentry) :
    readChnid (encodeList (e :: entries)) = e.desc.headD 0 := by
  obtain ⟨h0,h1,len⟩ := List.length_eq_two.mp (imageLength .big sizeofLen (entrySize e))
  rw [encodeList,List.flatMap_cons,encodeEntry,len]
  cases desc : e.desc with
  | nil => rfl
  | cons b rest => rfl

theorem listChosen {se : Session} {o : ByteOrder} {e : MlibListentry} {entries : List MlibListentry}
    {fits : totalsize (e :: entries) ≤ msgListMax} (choice : minchnid ≤ se.chosenChannel) :
    chosen se (datagram o se.serverAddr (.list (e :: entries) fits)) = true ↔
      ((e.desc.headD 0).toNat : Int) = se.chosenChannel := by
  simp only [chosen,datagram,octets,listOctetsEncoded,listChnid,decide_eq_true_eq,true_and]
  constructor
  · exact fun both => both.2
  · intro same
    refine ⟨?_,same⟩
    have text : e.desc ≠ [] := by
      intro none
      simp only [none,List.headD_nil,minchnid] at same choice
      have zero : ((0 : UInt8).toNat : Int) = 0 := rfl
      omega
    have some_ := List.length_pos_iff.mpr text
    simp only [encodeList,List.length_cons,List.flatMap_cons,List.length_append,encodeEntryLength,entrySize,
      sizeofMsgListentry,entryDescOffset,sizeofMsgChannel,channelDataOffset,sizeofSeq,sizeofChnid,sizeofLen]
    omega

structure Untouched (s t : Client) : Prop where
  packets : t.packetsReceived = s.packetsReceived
  tracker : t.tracker = s.tracker
  ring : t.rb = s.rb
  ignored : t.receiver = .loopTest

theorem listStaysOut {se : Session} {s t : Client} {o : ByteOrder} {e : MlibListentry}
    {entries : List MlibListentry} {fits : totalsize (e :: entries) ≤ msgListMax}
    (choice : minchnid ≤ se.chosenChannel ∧ se.chosenChannel ≤ maxchnid)
    (step : next se s (.recvfrom (.datagram (datagram o se.serverAddr (.list (e :: entries) fits)))) = some t) :
    Untouched s t ↔ ((e.desc.headD 0).toNat : Int) ≠ se.chosenChannel := by
  rcases stepCases step with receiver | writer | stats
  · cases receiver with
    | recvChosen d pc passed =>
      have same := (listChosen choice.1).mp passed
      constructor
      · intro untouched
        have count := untouched.packets
        simp only at count
        omega
      · exact fun other => absurd same other
    | recvIgnored d pc failed =>
      refine ⟨?_,fun _ => ⟨rfl,rfl,rfl,rfl⟩⟩
      intro _ same
      rw [(listChosen choice.1).mpr same] at failed
      cases failed
  · cases writer
  · cases stats

def digitEntry : MlibListentry := ⟨49,[49,10],by decide⟩
def digitList : Arrival := .list [digitEntry] (by decide)

def waiting (chosenChannel : Int) : Option Client :=
  Execution.exec (next ⟨.little,chosenChannel,sampleServer⟩) (initial []) [.receiverStart true,.receiverLoop]

theorem listIgnoredByFirst : ∃ s t, waiting 1 = some s ∧
    next ⟨.little,1,sampleServer⟩ s (.recvfrom (.datagram (datagram .little sampleServer digitList))) = some t ∧
    Untouched s t := by
  refine ⟨_,_,rfl,rfl,?_⟩
  exact (@listStaysOut ⟨.little,1,sampleServer⟩ _ _ .little digitEntry [] (by decide) (by decide) rfl).mpr
    (by decide)

theorem listPlayed : ∃ s t, waiting 49 = some s ∧
    next ⟨.little,49,sampleServer⟩ s (.recvfrom (.datagram (datagram .little sampleServer digitList))) = some t ∧
    t.packetsReceived = 1 ∧ readData t.msgChannel 2 = [10,0] ∧ ¬ Untouched s t := by
  refine ⟨_,_,rfl,rfl,rfl,rfl,?_⟩
  intro untouched
  exact absurd untouched.packets (by decide)

end IPv4Media.Formats
