import IPv4Media.Library.Execution
import IPv4Media.Playlist
import IPv4Media.Proto

/-! thr_channel_snder (thr_channel.c): one turn of its loop for each call of
mlib_readchn. The label of a turn holds what the turn does not decide: the grant, the
files' answers during the call, and whether sendto takes the datagram. -/
namespace IPv4Media.ChannelSender
open Octets Proto Playlist Execution

-- 320*1024/8 octets are asked for in every call.
def readSize : Nat := 320 * 1024 / 8

variable {φ : Type}

structure Snder (φ : Type) where
  sequenceNumber : UInt32
  ch : ChannelContext φ
  sent : List Bytes
  running : Bool

structure Turn (φ : Type) where
  os : Os φ
  tbfsize : Nat
  iterations : Nat
  sendOk : Bool

def snderInit (ch : ChannelContext φ) : Snder φ := ⟨0,ch,[],true⟩

structure Admitted (s : Snder φ) (r : Turn φ) : Prop where
  running : s.running = true
  positive : 1 ≤ r.tbfsize
  within : r.tbfsize ≤ readSize
instance (s : Snder φ) (r : Turn φ) : Decidable (Admitted s r) :=
  decidable_of_iff (s.running = true ∧ 1 ≤ r.tbfsize ∧ r.tbfsize ≤ readSize)
    ⟨fun h => ⟨h.1,h.2.1,h.2.2⟩,fun h => ⟨h.running,h.positive,h.within⟩⟩

def snderNext (o : ByteOrder) (chnid : UInt8) (s : Snder φ) (r : Turn φ) : Option (Snder φ) :=
  if Admitted s r then do
    let (read,_) ← mlibReadchn r.os chnid r.tbfsize r.iterations s.ch
    if read.len < 0 then some { s with ch := read.ch, running := false }
    else if r.sendOk then
      some { s with
        ch := read.ch
        sent := s.sent ++ [msgChannel o s.sequenceNumber chnid read.buf]
        sequenceNumber := s.sequenceNumber + 1 }
    else some { s with ch := read.ch, running := false }
  else none

/- What one turn can do. The exit for a negative length is not among it. -/
inductive SnderStep (o : ByteOrder) (chnid : UInt8) (s : Snder φ) (r : Turn φ) : Snder φ → Prop where
  | sent (read : Read φ) (admitted : Admitted s r)
      (source : ReadSource r.os chnid r.tbfsize 0 s.ch read) (taken : r.sendOk = true) :
      SnderStep o chnid s r { s with
        ch := read.ch
        sent := s.sent ++ [msgChannel o s.sequenceNumber chnid read.buf]
        sequenceNumber := s.sequenceNumber + 1 }
  | refused (read : Read φ) (admitted : Admitted s r)
      (source : ReadSource r.os chnid r.tbfsize 0 s.ch read) (failed : r.sendOk = false) :
      SnderStep o chnid s r { s with ch := read.ch, running := false }

theorem snderSound {o chnid} {s t : Snder φ} {r} (h : snderNext o chnid s r = some t) :
    SnderStep o chnid s r t := by
  unfold snderNext at h
  split at h <;> try contradiction
  rename_i admitted
  obtain ⟨⟨read,refund⟩,called,rest⟩ := Option.bind_eq_some_iff.mp h
  obtain ⟨found,looped,same⟩ := Option.bind_eq_some_iff.mp called
  cases Option.some.inj same
  have source := readSound looped
  have positive : ¬ read.len < 0 := by
    have length := (readLength source).1
    omega
  simp only [if_neg positive] at rest
  split at rest
  · rename_i taken
    cases Option.some.inj rest
    exact .sent read admitted source taken
  · rename_i failed
    cases Option.some.inj rest
    exact .refused read admitted source (Bool.eq_false_iff.mpr failed)

theorem snderSent {o chnid} {s : Snder φ} {r read} (admitted : Admitted s r)
    (looped : readLoop r.os chnid r.tbfsize r.iterations 0 s.ch = some read) (taken : r.sendOk = true) :
    snderNext o chnid s r = some { s with
      ch := read.ch
      sent := s.sent ++ [msgChannel o s.sequenceNumber chnid read.buf]
      sequenceNumber := s.sequenceNumber + 1 } := by
  have positive : ¬ read.len < 0 := by
    have length := (readLength (readSound looped)).1
    omega
  rw [snderNext,if_pos admitted,mlibReadchn,looped]
  simp [positive,taken]

structure Numbered (o : ByteOrder) (chnid : UInt8) (s : Snder φ) : Prop where
  count : s.sequenceNumber = UInt32.ofNat s.sent.length
  each : ∀ i d, s.sent[i]? = some d →
    ∃ data, d = msgChannel o (UInt32.ofNat i) chnid data ∧ data.length ≤ readSize

theorem numberedStep {o chnid} {s t : Snder φ} {r} (numbered : Numbered o chnid s)
    (step : SnderStep o chnid s r t) : Numbered o chnid t := by
  cases step with
  | refused read admitted source failed => exact ⟨numbered.count,numbered.each⟩
  | sent read admitted source taken =>
    have size := (readLength source).2
    have granted := admitted.within
    constructor
    · simp only [numbered.count,List.length_append,List.length_singleton,UInt32.ofNat_add]
      rfl
    · intro i d there
      rcases Nat.lt_trichotomy i s.sent.length with old | new | past
      · rw [List.getElem?_append_left old] at there
        exact numbered.each i d there
      · subst new
        rw [List.getElem?_concat_length] at there
        cases Option.some.inj there
        exact ⟨read.buf,by rw [numbered.count],by omega⟩
      · rw [List.getElem?_eq_none (by simp only [List.length_append,List.length_singleton]; omega)] at there
        cases there

theorem numberedRun {o chnid} {ch : ChannelContext φ} {turns s}
    (run : exec (snderNext o chnid) (snderInit ch) turns = some s) : Numbered o chnid s := by
  refine invariant ⟨rfl,by simp [snderInit]⟩ ?_ run
  intro s r t numbered step
  exact numberedStep numbered (snderSound step)

def payloads (sent : List Bytes) : List Bytes := sent.map fun d => d.drop channelDataOffset

theorem payloadSent (o : ByteOrder) (seq : UInt32) (chnid : UInt8) (data : Bytes) :
    (msgChannel o seq chnid data).drop channelDataOffset = data := by
  have read := (readMsgChannel o seq chnid data).2.2
  rw [readData,List.take_of_length_le (by simp)] at read
  exact read

theorem payloadsSnoc (o : ByteOrder) (sent : List Bytes) (seq : UInt32) (chnid : UInt8) (data : Bytes) :
    (payloads (sent ++ [msgChannel o seq chnid data])).flatten = (payloads sent).flatten ++ data := by
  simp [payloads,payloadSent]

end IPv4Media.ChannelSender
