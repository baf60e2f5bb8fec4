import IPv4Media.FlowControl
import IPv4Media.Formats
import IPv4Media.Library.Interleaving

/-! The server once main has started its threads: thr_list and one thr_channel_snder a
channel, every step of each with its bucket, and the one socket they all write to. The
order of the steps is anybody's, so a run is an interleaving of the threads. -/
namespace IPv4Media.Server
open Octets Proto Playlist ChannelSender ServerStream TokenBucket MediaLibrary ListCodec Formats Execution Interleaving
open FlowControl (Phase Flow FlowStep FileServer flowInit afterRead afterReadTurn flowSound)

/- What main has from mlib_getchnlist, and the files behind the channels. -/
structure Station (φ : Type) where
  order : ByteOrder
  content : Path → Bytes
  behind : φ → Bytes
  entries : List MlibListentry
  owners : List (ChannelContext φ)

variable {φ : Type}

abbrev Thread (st : Station φ) := Option (Fin st.owners.length)

def owner (st : Station φ) (k : Fin st.owners.length) : ChannelContext φ := st.owners.get k

def Part (st : Station φ) : Thread st → Type
  | none => List Bytes
  | some _ => Flow φ

-- thr_list has one step, its sendto, which the socket may refuse.
def Label (st : Station φ) : Thread st → Type
  | none => Bool
  | some k => FlowControl.Event st.content st.behind (owner st k).mp3glob

/- thr_list goes on after a refused sendto. -/
def next (st : Station φ) : ∀ i : Thread st, Part st i → Label st i → Option (Part st i)
  | none => fun (sent : List Bytes) (ok : Bool) =>
    some (if ok then sent ++ [listOctets st.order st.entries] else sent)
  | some k => FlowControl.next st.order (owner st k).chnid

def history (st : Station φ) : ∀ i : Thread st, Part st i → List Bytes
  | none => fun (sent : List Bytes) => sent
  | some _ => fun (f : Flow φ) => f.snder.sent

/- The log is what the socket took, in order. -/
abbrev Wire (st : Station φ) := Joint (Part st) Bytes

def start (st : Station φ) : Wire st where
  part
    | none => ([] : List Bytes)
    | some k => flowInit tbfCps tbfBurst (owner st k).tbf (owner st k)
  log := []

def serverNext (st : Station φ) : Wire st → Sigma (Label st) → Option (Wire st) := joint (next st) (history st)

structure Reading (content : Path → Bytes) (behind : φ → Bytes) (files : List Path) (chnid : UInt8) (a : Snder φ)
    (read : Read φ) (s : Snder φ) : Prop where
  moved : s = { a with ch := read.ch }
  turn : ∃ r : Turn φ, Admitted a r ∧ Serves content behind files r.os ∧ ∃ refund,
    mlibReadchn r.os chnid r.tbfsize r.iterations a.ch = some (read,refund)

def Follows (content : Path → Bytes) (behind : φ → Bytes) (files : List Path) (chnid : UInt8) (f : Flow φ)
    (a : Snder φ) : Prop :=
  match f.phase with
  | .idle => f.snder = a
  | .granted n => f.snder = a ∧ a.running = true ∧ 1 ≤ n ∧ n ≤ readSize
  | .refunding read _ => Reading content behind files chnid a read f.snder
  | .sending read => Reading content behind files chnid a read f.snder

variable {content : Path → Bytes} {behind : φ → Bytes} {files : List Path} {o : ByteOrder} {chnid : UInt8}

theorem fetchRange {b c : Mytbf} {size n : Int} (wanted : 1 ≤ size) (got : fetchtoken b size = some (n,c)) :
    1 ≤ n ∧ n ≤ size := by
  unfold fetchtoken at got
  split at got <;> try contradiction
  obtain ⟨rfl,rfl⟩ := Prod.mk.inj (Option.some.inj got)
  split <;> omega

theorem readingBegins {a : Snder φ} {server : FileServer content behind files} {n : Int} {read : Read φ}
    (running : a.running = true) (least : 1 ≤ n) (most : n ≤ readSize)
    (source : ReadSource server.os chnid n.toNat 0 a.ch read) :
    Reading content behind files chnid a read { a with ch := read.ch } := by
  obtain ⟨iterations,looped⟩ := readComplete source
  have admitted : Admitted a (⟨server.os,n.toNat,iterations,true⟩ : Turn φ) :=
    ⟨running,by simp only; omega,by simp only; omega⟩
  exact ⟨rfl,_,admitted,server.serves,_,by rw [mlibReadchn,looped]; rfl⟩

theorem readingSent {a s : Snder φ} {read : Read φ} (reading : Reading content behind files chnid a read s) (ok : Bool) :
    ∃ r : Turn φ, Serves content behind files r.os ∧ snderNext o chnid a r = some (afterRead o chnid s read ok) := by
  obtain ⟨rfl,r,admitted,serves,refund,called⟩ := reading
  refine ⟨{ r with sendOk := ok },serves,?_⟩
  exact afterReadTurn ⟨admitted.running,admitted.positive,admitted.within⟩ called

theorem followsStep {f g : Flow φ} {a : Snder φ} {e : FlowControl.Event content behind files}
    (follows : Follows content behind files chnid f a) (step : FlowStep o chnid f e g) :
    Follows content behind files chnid g a ∨ ∃ (r : Turn φ) (b : Snder φ), Serves content behind files r.os ∧
      snderNext o chnid a r = some b ∧ Follows content behind files chnid g b := by
  cases step with
  | tick bucket added => exact .inl follows
  | fetch n bucket idle running got =>
    rw [Follows,idle] at follows
    subst follows
    obtain ⟨least,most⟩ := fetchRange (by decide) got
    exact .inl ⟨rfl,running,least,most⟩
  | charged server iterations n read granted source whole =>
    rw [Follows,granted] at follows
    obtain ⟨rfl,running,least,most⟩ := follows
    exact .inl (readingBegins running least most source)
  | owing server iterations n read granted source part =>
    rw [Follows,granted] at follows
    obtain ⟨rfl,running,least,most⟩ := follows
    exact .inl (readingBegins running least most source)
  | giveBack read rest bucket owes added =>
    rw [Follows,owes] at follows
    exact .inl follows
  | send ok read holds =>
    rw [Follows,holds] at follows
    obtain ⟨r,serves,turned⟩ := @readingSent _ content behind files o chnid a _ read follows ok
    exact .inr ⟨r,_,serves,turned,rfl⟩

theorem followsSent {f : Flow φ} {a : Snder φ} (follows : Follows content behind files chnid f a) :
    f.snder.sent = a.sent := by
  unfold Follows at follows
  split at follows
  · rw [follows]
  · rw [follows.1]
  · rw [follows.moved]
  · rw [follows.moved]

theorem flowTurns {cps burst : Int} {slot : Nat} {ch : ChannelContext φ}
    {events : List (FlowControl.Event content behind files)} {f : Flow φ}
    (run : exec (FlowControl.next o chnid) (flowInit cps burst slot ch) events = some f) :
    ∃ turns a, (∀ r ∈ turns, Serves content behind files r.os) ∧
      exec (snderNext o chnid) (snderInit ch) turns = some a ∧ f.snder.sent = a.sent := by
  have steps : ∀ f a (e : FlowControl.Event content behind files) g, Follows content behind files chnid f a →
      FlowControl.next o chnid f e = some g → Follows content behind files chnid g a ∨ ∃ (r : Turn φ) (b : Snder φ),
        Serves content behind files r.os ∧ snderNext o chnid a r = some b ∧ Follows content behind files chnid g b :=
    fun f a e g follows step => followsStep follows (flowSound step)
  have begun : Follows content behind files chnid (flowInit cps burst slot ch) (snderInit ch) := rfl
  obtain ⟨turns,a,serves,turned,follows⟩ := simulates steps begun run
  exact ⟨turns,a,serves,turned,followsSent follows⟩

theorem flowGrows {f g : Flow φ} {e : FlowControl.Event content behind files} (step : FlowStep o chnid f e g) :
    f.snder.sent <+: g.snder.sent := by
  cases step with
  | send ok read holds =>
    simp only [afterRead]
    split
    · exact List.prefix_refl _
    · split
      · exact List.prefix_append _ _
      · exact List.prefix_refl _
  | _ => exact List.prefix_refl _

variable {st : Station φ}

theorem historyGrows : ∀ i (s t : Part st i) e, next st i s e = some t → history st i s <+: history st i t := by
  rintro (_ | k) s t e step
  · obtain rfl := Option.some.inj step
    cases e
    · exact List.prefix_refl _
    · exact List.prefix_append _ _
  · exact flowGrows (flowSound step)

theorem startLogged (st : Station φ) : Logged (history st) (start st) := by
  rintro (_ | k) <;> rfl

theorem wireSent {es : List (Sigma (Label st))} {s : Wire st} (run : exec (serverNext st) (start st) es = some s)
    (k : Fin st.owners.length) : ∃ turns a, (∀ r ∈ turns, Serves st.content st.behind (owner st k).mp3glob r.os) ∧
      exec (snderNext st.order (owner st k).chnid) (snderInit (owner st k)) turns = some a ∧
      ofMachine (some k) s.log = a.sent := by
  have mine := jointOwn run (some k)
  obtain ⟨turns,a,serves,turned,sent⟩ := flowTurns mine
  exact ⟨turns,a,serves,turned,(loggedRun historyGrows (startLogged st) run (some k)).trans sent⟩

/- What is lost at the end was read after all that was sent. -/
theorem sentPrefix {ch : ChannelContext φ} {turns : List (Turn φ)} {s : Snder φ} (ready : Ready content behind ch)
    (serves : ∀ r ∈ turns, Serves content behind ch.mp3glob r.os)
    (run : exec (snderNext o chnid) (snderInit ch) turns = some s) (n : Nat) :
    ∃ laps, (payloads (s.sent.take n)).flatten <+: (List.replicate laps (blocks content ch.mp3glob).flatten).flatten := by
  obtain ⟨lost,sent⟩ := sentSoFarRun ready serves run
  have inside : s.ch.pos < (blocks content ch.mp3glob).length := by
    rw [blocks,List.length_map,← sent.streaming.mp3glob]
    exact s.ch.inside
  obtain ⟨laps,whole⟩ := CyclicSearch.reachedPrefix sent.streaming.reached inside
  have first : payloads (s.sent.take n) <+: payloads s.sent := (List.take_prefix n s.sent).map _
  obtain ⟨rest,both⟩ := first
  refine ⟨laps,List.IsPrefix.trans ⟨rest.flatten ++ lost,?_⟩ whole⟩
  rw [← List.append_assoc,← List.flatten_append,both]

theorem wirePrefix (ready : ∀ k, Ready st.content st.behind (owner st k)) {es : List (Sigma (Label st))} {s : Wire st}
    (run : exec (serverNext st) (start st) es = some s) (k : Fin st.owners.length) (n : Nat) :
    ∃ laps, (payloads ((ofMachine (some k) s.log).take n)).flatten <+:
      (List.replicate laps (blocks st.content (owner st k).mp3glob).flatten).flatten := by
  obtain ⟨turns,a,serves,turned,sent⟩ := wireSent run k
  rw [sent]
  exact sentPrefix (ready k) serves turned n

theorem wireNumbered {es : List (Sigma (Label st))} {s : Wire st} (run : exec (serverNext st) (start st) es = some s)
    {k : Fin st.owners.length} {i : Nat} {d : Bytes} (there : (ofMachine (some k) s.log)[i]? = some d) :
    ∃ data, d = msgChannel st.order (UInt32.ofNat i) (owner st k).chnid data ∧ data.length ≤ readSize := by
  obtain ⟨turns,a,_,turned,sent⟩ := wireSent run k
  rw [sent] at there
  exact (numberedRun turned).each i d there

theorem wireFits {es : List (Sigma (Label st))} {s : Wire st} (run : exec (serverNext st) (start st) es = some s)
    {k : Fin st.owners.length} {i : Nat} {d : Bytes} (there : (ofMachine (some k) s.log)[i]? = some d) :
    d.length ≤ msgChannelMax := by
  obtain ⟨data,rfl,size⟩ := wireNumbered run there
  rw [msgChannelLength]
  simp only [readSize] at size
  simp only [channelDataOffset,sizeofSeq,sizeofChnid,msgChannelMax]
  omega

theorem listSent {es : List (Sigma (Label st))} {s : Wire st} (run : exec (serverNext st) (start st) es = some s) :
    ∀ d ∈ ofMachine none s.log, d = listOctets st.order st.entries := by
  have kept := loggedRun historyGrows (startLogged st) run none
  have mine := jointOwn run none
  rw [kept]
  refine invariant (I := fun sent : List Bytes => ∀ d ∈ sent, d = listOctets st.order st.entries) ?_ ?_ mine
  · intro d member
    cases member
  · intro sent ok later before step
    obtain rfl := Option.some.inj step
    cases ok
    · exact before
    · intro d member
      rcases List.mem_append.mp member with old | new
      · exact before d old
      · exact List.mem_singleton.mp new

/- Whatever the order of their steps, the threads do not disturb each other: each channel
numbers its own datagrams and reads its own files through in order, and between them
comes the same list again and again. -/
theorem serverWire (ready : ∀ k, Ready st.content st.behind (owner st k)) {es : List (Sigma (Label st))} {s : Wire st}
    (run : exec (serverNext st) (start st) es = some s) :
    (∀ k i d, (ofMachine (some k) s.log)[i]? = some d → readSeq st.order d = UInt32.ofNat i ∧
      readChnid d = (owner st k).chnid ∧ d.length ≤ msgChannelMax) ∧
    (∀ k n, ∃ laps, (payloads ((ofMachine (some k) s.log).take n)).flatten <+:
      (List.replicate laps (blocks st.content (owner st k).mp3glob).flatten).flatten) ∧
    (∀ d ∈ ofMachine none s.log, d = encodeList st.entries) := by
  refine ⟨?_,fun k n => wirePrefix ready run k n,?_⟩
  · intro k i d there
    have fits := wireFits run there
    obtain ⟨data,rfl,_⟩ := wireNumbered run there
    obtain ⟨seq,id,_⟩ := readMsgChannel st.order (UInt32.ofNat i) (owner st k).chnid data
    exact ⟨seq,id,fits⟩
  · intro d member
    rw [listSent run d member,listOctetsEncoded]

def sampleEntry : MlibListentry := ⟨5,[74,10],by decide⟩
def sampleStation : Station Path := ⟨.little,sampleContent,sampleContent,[sampleEntry],[sampleChannel]⟩
def sampleServer : FileServer sampleContent sampleContent sampleChannel.mp3glob := ⟨sampleOs,sampleServes⟩

def sampleThread : Thread sampleStation := some ⟨0,by decide⟩

def threadStep (e : FlowControl.Event sampleContent sampleContent sampleChannel.mp3glob) : Sigma (Label sampleStation) :=
  ⟨sampleThread,e⟩

def listStep : Sigma (Label sampleStation) := ⟨none,true⟩

def sampleSteps : List (Sigma (Label sampleStation)) :=
  [threadStep .tick,threadStep .fetch,listStep,threadStep (.read sampleServer 1),threadStep .tick,
   threadStep .giveBack,threadStep (.send true),listStep]

theorem sampleReady : ∀ k, Ready sampleStation.content sampleStation.behind (owner sampleStation k) := by
  intro k
  obtain ⟨k,below⟩ := k
  obtain rfl : k = 0 := Nat.lt_one_iff.mp below
  exact ⟨rfl,rfl,[1],rfl,rfl⟩

theorem sampleWire : ∃ s, exec (serverNext sampleStation) (start sampleStation) sampleSteps = some s ∧
    ofMachine sampleThread s.log = [msgChannel .little 0 5 [10,11,12]] ∧
    ∀ d ∈ ofMachine none s.log, d = encodeList [sampleEntry] := by
  have ran : (exec (serverNext sampleStation) (start sampleStation) sampleSteps).map
      (fun s => ofMachine sampleThread s.log) = some [msgChannel .little 0 5 [10,11,12]] := by decide +kernel
  obtain ⟨s,run,sent⟩ := Option.map_eq_some_iff.mp ran
  exact ⟨s,run,sent,(serverWire sampleReady run).2.2⟩

end IPv4Media.Server
