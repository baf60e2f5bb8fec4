import IPv4Media.ChannelSender
import IPv4Media.MediaLibrary

/-! The stream one channel thread puts out while its files stay as they are: read
through in order, from the first to the last and then again, without a gap at a
change of file. -/
namespace IPv4Media.ServerStream
open Octets Proto Playlist ChannelSender Execution

variable {φ : Type}

/- behind says which octets a descriptor leads to. pread stops short where it likes,
but not before the first octet. -/
structure Serves (content : Path → Bytes) (behind : φ → Bytes) (files : List Path) (os : Os φ) : Prop where
  opens : ∀ k i, ∀ p ∈ files, ∃ fd, os.openFile k i p = some fd ∧ behind fd = content p
  reads : ∀ k fd n offset, 1 ≤ n → (∃ p ∈ files, behind fd = content p) →
    ∃ bytes, os.preadFile k fd n offset = some bytes ∧ bytes <+: (behind fd).drop offset ∧
      (offset < (behind fd).length → bytes ≠ [])

def blocks (content : Path → Bytes) (files : List Path) : List Bytes := files.map content

structure Ready (content : Path → Bytes) (behind : φ → Bytes) (ch : ChannelContext φ) : Prop where
  pos : ch.pos = 0
  offset : ch.offset = 0
  fd : ∃ fd, ch.fd = some fd ∧ behind fd = content (path ch)

structure Streaming (content : Path → Bytes) (behind : φ → Bytes) (files : List Path) (ch : ChannelContext φ)
    (out : Bytes) : Prop where
  mp3glob : ch.mp3glob = files
  fd : ∃ fd, ch.fd = some fd ∧ behind fd = content (path ch)
  within : ch.offset ≤ (content (path ch)).length
  reached : CyclicSearch.Reached (blocks content files) ch.pos ch.offset out

theorem blockHere (content : Path → Bytes) (ch : ChannelContext φ) :
    (blocks content ch.mp3glob).getD ch.pos [] = content (path ch) := by
  have inside := ch.inside
  simp [blocks,List.getD,inside,path]

theorem pathMember (ch : ChannelContext φ) : path ch ∈ ch.mp3glob := List.get_mem _ _

theorem streamingReady {content : Path → Bytes} {behind : φ → Bytes} {ch} (ready : Ready content behind ch) :
    Streaming content behind ch.mp3glob ch [] := by
  refine ⟨rfl,ready.fd,by rw [ready.offset]; exact Nat.zero_le _,?_⟩
  rw [ready.pos,ready.offset]
  exact CyclicSearch.reachedStart _

theorem openNextServed {content : Path → Bytes} {behind : φ → Bytes} {ch : ChannelContext φ} {os : Os φ}
    (serves : Serves content behind ch.mp3glob os) (chnid : UInt8) (k : Nat) :
    (openNext os chnid k ch).ch.pos = CyclicSearch.next ch.mp3glob.length ch.pos ∧
    (openNext os chnid k ch).ch.offset = 0 ∧
    ∃ fd, (openNext os chnid k ch).ch.fd = some fd ∧ behind fd = content (path (openNext os chnid k ch).ch) := by
  have inside := ch.inside
  have files := (openNextSame os chnid k ch).mp3glob
  obtain ⟨fd,opens,same⟩ := serves.opens k 0 (path (advance ch)) (List.get_mem _ _)
  have first : fileAfter os k ch 0 = some fd := by
    rw [fileAfter,Nat.zero_add,← CyclicSearch.nextMod inside,fileAdvanced,opens]
  cases openNextCases os chnid k ch with
  | missed silent => exact absurd (first.symm.trans (silent 0 (by omega))) (Option.some_ne_none fd)
  | found d other within silent answer ret pos held offset =>
    have now : d = 0 := by
      by_contra later
      exact absurd (first.symm.trans (silent 0 (by omega))) (Option.some_ne_none fd)
    subst now
    cases Option.some.inj (first.symm.trans answer)
    rw [Nat.zero_add,← CyclicSearch.nextMod inside] at pos
    refine ⟨pos,offset,fd,held,same.trans (congrArg content ?_)⟩
    simp only [path,List.get_eq_getElem,advance]
    simp only [files,pos]

theorem streamingRead {content : Path → Bytes} {behind : φ → Bytes} {files ch out os chnid tbfsize read}
    (streaming : Streaming content behind files ch out) (serves : Serves content behind files os)
    (positive : 1 ≤ tbfsize) (source : ReadSource os chnid tbfsize 0 ch read) :
    Streaming content behind files read.ch (out ++ read.buf) := by
  obtain ⟨rfl,⟨fd,held,same⟩,within,reached⟩ := streaming
  obtain ⟨bytes,got,piece,least⟩ := serves.reads 0 fd tbfsize ch.offset positive ⟨_,pathMember ch,same⟩
  have now : pread os 0 ch tbfsize = some bytes := by rw [pread,held]; exact got
  rw [same] at piece least
  cases source with
  | failed error next =>
    rw [now] at error
    cases error
  | atEnd ended =>
    rw [now] at ended
    cases Option.some.inj ended
    have last : (content (path ch)).length ≤ ch.offset := by
      by_contra before
      exact least (by omega) rfl
    obtain ⟨pos,offset,opened⟩ := openNextServed serves chnid 0
    have turned := CyclicSearch.reachedTurn reached (by simp [blocks,ch.inside]) (by rw [blockHere]; exact last)
    refine ⟨(openNextSame os chnid 0 ch).mp3glob,opened,by rw [offset]; exact Nat.zero_le _,?_⟩
    rw [pos,offset,List.append_nil]
    simpa [blocks] using turned
  | data read filled =>
    rw [now] at read
    cases Option.some.inj read
    have fits : ch.offset + bytes.length ≤ (content (path ch)).length := by
      have short := piece.length_le
      rw [List.length_drop] at short
      omega
    refine ⟨rfl,⟨fd,held,same⟩,fits,CyclicSearch.reachedRead reached ?_⟩
    rw [blockHere]
    exact piece

/- What a refused datagram took out of the file is lost, and the thread has ended. -/
structure SentSoFar (content : Path → Bytes) (behind : φ → Bytes) (files : List Path) (s : Snder φ)
    (lost : Bytes) : Prop where
  streaming : Streaming content behind files s.ch ((payloads s.sent).flatten ++ lost)
  none : s.running = true → lost = []

theorem sentSoFarRun {content : Path → Bytes} {behind : φ → Bytes} {o chnid} {ch : ChannelContext φ} {turns s}
    (ready : Ready content behind ch) (serves : ∀ r ∈ turns, Serves content behind ch.mp3glob r.os)
    (run : exec (snderNext o chnid) (snderInit ch) turns = some s) :
    ∃ lost, SentSoFar content behind ch.mp3glob s lost := by
  refine history (I := fun turns s => (∀ r ∈ turns, Serves content behind ch.mp3glob r.os) →
    ∃ lost, SentSoFar content behind ch.mp3glob s lost) ?_ ?_ run serves
  · intro _
    exact ⟨[],streamingReady ready,fun _ => rfl⟩
  · intro before s r t kept step served
    obtain ⟨lost,streaming,none⟩ := kept (fun old member => served old (List.mem_append_left _ member))
    have last := served r (List.mem_append_right _ (List.mem_singleton_self r))
    cases snderSound step with
    | sent read admitted source taken =>
      obtain rfl := none admitted.running
      rw [List.append_nil] at streaming
      refine ⟨[],?_,fun _ => rfl⟩
      rw [payloadsSnoc,List.append_nil]
      exact streamingRead streaming last admitted.positive source
    | refused read admitted source failed =>
      obtain rfl := none admitted.running
      rw [List.append_nil] at streaming
      exact ⟨read.buf,streamingRead streaming last admitted.positive source,fun on => by cases on⟩

theorem turnEnds {content : Path → Bytes} {behind : φ → Bytes} {files ch out os chnid tbfsize iterations}
    (streaming : Streaming content behind files ch out) (serves : Serves content behind files os)
    (positive : 1 ≤ tbfsize) (some_ : 0 < iterations) :
    ∃ read, readLoop os chnid tbfsize iterations 0 ch = some read := by
  obtain ⟨rfl,⟨fd,held,same⟩,_,_⟩ := streaming
  obtain ⟨bytes,got,_,_⟩ := serves.reads 0 fd tbfsize ch.offset positive ⟨_,pathMember ch,same⟩
  have now : pread os 0 ch tbfsize = some bytes := by rw [pread,held]; exact got
  exact readReturns chnid now some_

theorem serverStreamFidelity {content : Path → Bytes} {behind : φ → Bytes} {o chnid} {ch : ChannelContext φ}
    {turns s} (ready : Ready content behind ch)
    (serves : ∀ r ∈ turns, Serves content behind ch.mp3glob r.os)
    (run : exec (snderNext o chnid) (snderInit ch) turns = some s) :
    (∀ k, ∃ laps, (payloads (s.sent.take k)).flatten <+:
      (List.replicate laps (blocks content ch.mp3glob).flatten).flatten) ∧
    (∀ i d, s.sent[i]? = some d →
      readSeq o d = UInt32.ofNat i ∧ readChnid d = chnid ∧ d.length ≤ msgChannelMax) ∧
    (∀ r, Admitted s r → Serves content behind ch.mp3glob r.os → 0 < r.iterations → r.sendOk = true →
      ∃ t, snderNext o chnid s r = some t ∧ t.sent.length = s.sent.length + 1) := by
  obtain ⟨lost,streaming,none⟩ := sentSoFarRun ready serves run
  have numbered := numberedRun run
  refine ⟨?_,?_,?_⟩
  · intro k
    obtain ⟨laps,whole⟩ := CyclicSearch.reachedPrefix streaming.reached (by
      rw [blocks,List.length_map,← streaming.mp3glob]
      exact s.ch.inside)
    refine ⟨laps,List.IsPrefix.trans ?_ whole⟩
    refine ⟨(payloads (s.sent.drop k)).flatten ++ lost,?_⟩
    rw [← List.append_assoc,← List.flatten_append,payloads,payloads,← List.map_append,List.take_append_drop]
    rfl
  · intro i d there
    obtain ⟨data,rfl,size⟩ := numbered.each i d there
    obtain ⟨seq,id,_⟩ := readMsgChannel o (UInt32.ofNat i) chnid data
    refine ⟨seq,id,?_⟩
    rw [msgChannelLength]
    simp only [readSize] at size
    simp only [channelDataOffset,sizeofSeq,sizeofChnid,msgChannelMax]
    omega
  · intro r admitted served some_ taken
    obtain ⟨read,looped⟩ := @turnEnds φ content behind _ s.ch _ r.os chnid _ _ streaming served
      admitted.positive some_
    exact ⟨_,snderSent admitted looped taken,by simp⟩

def sampleContent (p : Path) : Bytes := if p = [1] then [10,11,12] else []

def sampleChannel : ChannelContext Path := ⟨5,[],[[1],[3]],0,some [1],0,0,by decide⟩

def sampleOs : Os Path where
  openFile _ _ p := some p
  preadFile _ fd n offset := some (((sampleContent fd).drop offset).take n)
  short := by
    intro _ fd n offset bytes got
    cases Option.some.inj got
    exact List.length_take_le n _

def sampleTurns : List (Turn Path) := [2,2,2,2,2,2].map fun n => ⟨sampleOs,n,1,true⟩

theorem sampleServes : Serves sampleContent sampleContent sampleChannel.mp3glob sampleOs where
  opens _ _ p _ := ⟨p,rfl,rfl⟩
  reads _ fd n offset positive _ := by
    refine ⟨_,rfl,List.take_prefix n _,?_⟩
    intro before
    apply List.ne_nil_of_length_pos
    rw [List.length_take,List.length_drop]
    omega

/- The payloads are 10 11, 12, end of file, end of the empty file, 10 11, 12. -/
theorem sampleFidelity : ∃ s, exec (snderNext .little 5) (snderInit sampleChannel) sampleTurns = some s ∧
    payloads s.sent = [[10,11],[12],[],[],[10,11],[12]] ∧
    ∃ laps, (payloads (s.sent.take 5)).flatten <+:
      (List.replicate laps (blocks sampleContent sampleChannel.mp3glob).flatten).flatten := by
  have ready : Ready sampleContent sampleContent sampleChannel := ⟨rfl,rfl,_,rfl,rfl⟩
  have serves : ∀ r ∈ sampleTurns, Serves sampleContent sampleContent sampleChannel.mp3glob r.os := by
    intro r member
    obtain ⟨n,_,rfl⟩ := List.mem_map.mp member
    exact sampleServes
  exact ⟨_,rfl,rfl,(@serverStreamFidelity _ _ _ .little 5 _ _ _ ready serves rfl).1 5⟩

end IPv4Media.ServerStream
