import IPv4Media.ChannelSender
import IPv4Media.ClientTrace
import IPv4Media.Library.Gaps

/-! Sequence numbers from the channel thread to packet_loss_count. The thread numbers
every datagram, those at the end of a file too. The receiver takes no datagram
without payload, because sizeof(struct msg_channel_st) counts data[1], and so meets
a gap where nothing was lost. -/
namespace IPv4Media.LossAccounting
open Octets Proto Socket Receiver ClientThreads ClientTrace Playlist ChannelSender Execution

variable {φ : Type}

/- Any of the sent datagrams, in order and once each, from the server's address. -/
structure Delivered (se : Session) (sent : List Bytes) (ds : List Nat) (trace : List Event) : Prop where
  increasing : Gaps.Increasing ds
  inside : ∀ i ∈ ds, i < sent.length
  arrived : (arrivals trace).map (fun d => (d.source,d.bytes)) =
    ds.map fun i => (se.serverAddr,sent.getD i [])

def withPayload (sent : List Bytes) (ds : List Nat) : List Nat :=
  ds.filter fun i => decide (channelDataOffset < (sent.getD i []).length)

theorem chosenNumbered {o : ByteOrder} {chnid : UInt8} {w : Snder φ} {se : Session} {d i}
    (numbered : Numbered o chnid w) (order : se.order = o) (tuned : se.chosenChannel = (chnid.toNat : Int))
    (inside : i < w.sent.length) (same : (d.source,d.bytes) = (se.serverAddr,w.sent.getD i [])) :
    chosen se d = decide (channelDataOffset < (w.sent.getD i []).length) ∧ seqOf se d = UInt32.ofNat i := by
  obtain ⟨source,bytes⟩ := Prod.mk.inj same
  have there : w.sent[i]? = some (w.sent.getD i []) := by simp [List.getD,inside]
  obtain ⟨data,sent,_⟩ := numbered.each i _ there
  obtain ⟨seq,id,_⟩ := readMsgChannel o (UInt32.ofNat i) chnid data
  constructor
  · simp only [chosen,source,bytes,sent,id,tuned,sizeofMsgChannel,Nat.lt_iff_add_one_le,true_and,and_true]
  · rw [seqOf,bytes,sent,order]
    exact seq

theorem offersNumbered {o : ByteOrder} {chnid : UInt8} {w : Snder φ} {se : Session} (numbered : Numbered o chnid w)
    (order : se.order = o) (tuned : se.chosenChannel = (chnid.toNat : Int)) (ds : List Nat) (ds_ : List Datagram)
    (inside : ∀ i ∈ ds, i < w.sent.length)
    (arrived : ds_.map (fun d => (d.source,d.bytes)) = ds.map fun i => (se.serverAddr,w.sent.getD i [])) :
    (ds_.filter (chosen se)).map (seqOf se) = (withPayload w.sent ds).map UInt32.ofNat := by
  induction ds generalizing ds_ with
  | nil =>
    obtain rfl := List.map_eq_nil_iff.mp arrived
    rfl
  | cons i ds ih =>
    obtain ⟨d,rest,rfl,same,later⟩ := List.map_eq_cons_iff.mp arrived
    obtain ⟨passes,seq⟩ := chosenNumbered numbered order tuned (inside i (List.mem_cons_self)) same
    have tail := ih rest (fun j member => inside j (List.mem_cons_of_mem i member)) later
    rw [withPayload,List.filter_cons,List.filter_cons,passes]
    split
    · rw [List.map_cons,List.map_cons,seq,tail]
      rfl
    · exact tail

theorem trackGaps {ls : List Nat} (inc : Gaps.Increasing ls) :
    ((ls.map UInt32.ofNat).foldl track SeqTracker.initial).packetLossCount.toUInt32 =
      UInt32.ofNat (Gaps.missing ls) := by
  cases ls with
  | nil => rfl
  | cons a ls =>
    have loss := (trackRun (UInt32.ofNat a) (ls.map UInt32.ofNat)).2.2
    have count := Gaps.missingCount inc
    have last : (ls.map UInt32.ofNat).getLastD (UInt32.ofNat a) =
        UInt32.ofNat ((a::ls).getLast (List.cons_ne_nil a ls)) := by
      rw [List.getLastD_map,List.getLast_eq_getLastD]
    have least := Gaps.headLeast inc (List.getLast_mem (List.cons_ne_nil a ls))
    have total : (a::ls).getLast (List.cons_ne_nil a ls) = Gaps.missing (a::ls) + ls.length + a := by omega
    rw [List.map_cons,loss,last,total,List.length_map,UInt32.ofNat_add,UInt32.ofNat_add]
    grind

theorem countsGaps {o chnid} {ch : ChannelContext φ} {turns w} {se : Session} {heap trace s ds}
    (sender : exec (snderNext o chnid) (snderInit ch) turns = some w) (order : se.order = o)
    (tuned : se.chosenChannel = (chnid.toNat : Int)) (delivered : Delivered se w.sent ds trace)
    (run : exec (next se) (initial heap) trace = some s) :
    s.tracker.packetLossCount.toUInt32 = UInt32.ofNat (Gaps.missing (withPayload w.sent ds)) := by
  have seqs := offersNumbered (numberedRun sender) order tuned ds _ delivered.inside delivered.arrived
  rw [(bookedRun run).tracker,offers,seqs]
  exact trackGaps (delivered.increasing.filter _)

theorem sameCount (a b : Nat) : UInt32.ofNat a = UInt32.ofNat b ↔ a % 2^32 = b % 2^32 := by
  rw [← UInt32.toNat_inj]
  simp

/- packet_loss_count is right when the gaps it adds for delivered datagrams without
payload make up for the losses before and after the payloads, which it cannot see. -/
theorem lossAccounting {o chnid} {ch : ChannelContext φ} {turns w} {se : Session} {heap trace s ds}
    (sender : exec (snderNext o chnid) (snderInit ch) turns = some w) (order : se.order = o)
    (tuned : se.chosenChannel = (chnid.toNat : Int)) (delivered : Delivered se w.sent ds trace)
    (run : exec (next se) (initial heap) trace = some s) :
    s.tracker.packetLossCount.toUInt32 = UInt32.ofNat (Gaps.missing ds) ↔
      Gaps.added (withPayload w.sent ds) ds % 2^32 = Gaps.forgotten (withPayload w.sent ds) ds % 2^32 := by
  rw [countsGaps sender order tuned delivered run,sameCount]
  have sub : (withPayload w.sent ds).Sublist ds := List.filter_sublist
  have split := Gaps.missingSublist sub delivered.increasing
  omega

/- A playlist of one file of one octet: its payload, its end, its payload again. -/
def oneOctetOs : Os Unit where
  openFile _ _ _ := some ()
  preadFile _ _ n offset := some ((([7] : Bytes).drop offset).take n)
  short := by
    intro _ _ n offset bytes got
    cases Option.some.inj got
    exact List.length_take_le n _

def oneOctetChannel : ChannelContext Unit := ⟨3,[],[[1]],0,some (),0,0,by decide⟩
def threeTurns : List (Turn Unit) := List.replicate 3 ⟨oneOctetOs,10,1,true⟩
def sampleSession : Session := ⟨.little,3,⟨1,1989⟩⟩
def sampleDatagram (seq : UInt32) (data : Bytes) (fits : (msgChannel .little seq 3 data).length ≤ msgChannelMax) :
    Datagram := ⟨⟨1,1989⟩,msgChannel .little seq 3 data,fits⟩

def lossTrace : List Event :=
  [.receiverStart true,.receiverLoop,.recvfrom (.datagram (sampleDatagram 0 [7] (by decide))),.ringWriteCopy,
   .account,.receiverLoop,.recvfrom (.datagram (sampleDatagram 2 [7] (by decide)))]

theorem lossCounted : ∃ w s, exec (snderNext .little 3) (snderInit oneOctetChannel) threeTurns = some w ∧
    exec (next sampleSession) (initial []) lossTrace = some s ∧
    s.tracker.packetLossCount.toUInt32 = UInt32.ofNat (Gaps.missing [0,2]) := by
  have delivered : Delivered sampleSession
      [msgChannel .little 0 3 [7],msgChannel .little 1 3 [],msgChannel .little 2 3 [7]] [0,2] lossTrace :=
    ⟨by decide,by decide,rfl⟩
  exact ⟨_,_,rfl,rfl,(@lossAccounting Unit .little 3 oneOctetChannel threeTurns _ sampleSession [] lossTrace _
    [0,2] rfl rfl rfl delivered rfl).mpr (by decide)⟩

def completeTrace : List Event :=
  [.receiverStart true,.receiverLoop,.recvfrom (.datagram (sampleDatagram 0 [7] (by decide))),.ringWriteCopy,
   .account,.receiverLoop,.recvfrom (.datagram (sampleDatagram 1 [] (by decide))),
   .receiverLoop,.recvfrom (.datagram (sampleDatagram 2 [7] (by decide)))]

theorem endOfFileReportedLost : ∃ w s, exec (snderNext .little 3) (snderInit oneOctetChannel) threeTurns = some w ∧
    exec (next sampleSession) (initial []) completeTrace = some s ∧
    Delivered sampleSession w.sent [0,1,2] completeTrace ∧ Gaps.missing [0,1,2] = 0 ∧
    s.tracker.packetLossCount = 1 ∧
    s.tracker.packetLossCount.toUInt32 ≠ UInt32.ofNat (Gaps.missing [0,1,2]) :=
  ⟨_,_,rfl,rfl,⟨by decide,by decide,rfl⟩,by decide,rfl,by decide⟩

end IPv4Media.LossAccounting
