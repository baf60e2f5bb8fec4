import IPv4Media.ServerStream
import IPv4Media.TokenBucket

/-! How many datagrams a channel thread puts out between two ticks: thr_channel_snder
with its bucket. The fetch, the loop of mlib_readchn, the refund and sendto are steps
of their own, because a tick may come between any two of them. -/
namespace IPv4Media.FlowControl
open Octets Proto Playlist ChannelSender ServerStream TokenBucket Execution

variable {φ : Type}

inductive Phase (φ : Type)
  | idle
  | granted (n : Int)
  | refunding (read : Read φ) (rest : Int)
  | sending (read : Read φ)

structure Flow (φ : Type) where
  bucket : Mytbf
  snder : Snder φ
  phase : Phase φ

/- An operating system under which every file of the playlist opens and reads. -/
structure FileServer (content : Path → Bytes) (behind : φ → Bytes) (files : List Path) where
  os : Os φ
  serves : Serves content behind files os

inductive Event (content : Path → Bytes) (behind : φ → Bytes) (files : List Path)
  | tick
  | fetch
  | read (server : FileServer content behind files) (iterations : Nat)
  | giveBack
  | send (ok : Bool)

def flowInit (cps burst : Int) (slot : Nat) (ch : ChannelContext φ) : Flow φ :=
  ⟨⟨cps,burst,0,slot⟩,snderInit ch,.idle⟩

/- thr_channel_snder after mlib_readchn. -/
def afterRead (o : ByteOrder) (chnid : UInt8) (s : Snder φ) (read : Read φ) (ok : Bool) : Snder φ :=
  if read.len < 0 then { s with running := false }
  else if ok then
    { s with
      sent := s.sent ++ [msgChannel o s.sequenceNumber chnid read.buf]
      sequenceNumber := s.sequenceNumber + 1 }
  else { s with running := false }

variable {content : Path → Bytes} {behind : φ → Bytes} {files : List Path}

def next (o : ByteOrder) (chnid : UInt8) (f : Flow φ) : Event content behind files → Option (Flow φ)
  | .tick => do
    let bucket ← credit f.bucket
    some { f with bucket }
  | .fetch =>
    match f.phase with
    | .idle =>
      if f.snder.running then do
        let (n,bucket) ← fetchtoken f.bucket readSize
        some { f with bucket, phase := .granted n }
      else none
    | _ => none
  | .read server iterations =>
    match f.phase with
    | .granted n => do
      let (read,refund) ← mlibReadchn server.os chnid n.toNat iterations f.snder.ch
      some { f with
        snder := { f.snder with ch := read.ch }
        phase := match refund with
          | none => .sending read
          | some rest => .refunding read rest }
    | _ => none
  | .giveBack =>
    match f.phase with
    | .refunding read rest => do
      let bucket ← returntoken f.bucket rest
      some { f with bucket, phase := .sending read }
    | _ => none
  | .send ok =>
    match f.phase with
    | .sending read => some { f with snder := afterRead o chnid f.snder read ok, phase := .idle }
    | _ => none

inductive FlowStep (o : ByteOrder) (chnid : UInt8) (f : Flow φ) : Event content behind files → Flow φ → Prop where
  | tick (bucket : Mytbf) (added : credit f.bucket = some bucket) : FlowStep o chnid f .tick { f with bucket }
  | fetch (n : Int) (bucket : Mytbf) (idle : f.phase = .idle) (running : f.snder.running = true)
      (got : fetchtoken f.bucket readSize = some (n,bucket)) :
      FlowStep o chnid f .fetch { f with bucket, phase := .granted n }
  | charged (server : FileServer content behind files) (iterations : Nat) (n : Int) (read : Read φ)
      (granted : f.phase = .granted n) (source : ReadSource server.os chnid n.toNat 0 f.snder.ch read)
      (whole : n.toNat ≤ read.len) :
      FlowStep o chnid f (.read server iterations) { f with
        snder := { f.snder with ch := read.ch }
        phase := .sending read }
  | owing (server : FileServer content behind files) (iterations : Nat) (n : Int) (read : Read φ)
      (granted : f.phase = .granted n) (source : ReadSource server.os chnid n.toNat 0 f.snder.ch read)
      (part : read.len < n.toNat) :
      FlowStep o chnid f (.read server iterations) { f with
        snder := { f.snder with ch := read.ch }
        phase := .refunding read (n.toNat - read.len) }
  | giveBack (read : Read φ) (rest : Int) (bucket : Mytbf) (owes : f.phase = .refunding read rest)
      (added : returntoken f.bucket rest = some bucket) :
      FlowStep o chnid f .giveBack { f with bucket, phase := .sending read }
  | send (ok : Bool) (read : Read φ) (holds : f.phase = .sending read) :
      FlowStep o chnid f (.send ok) { f with snder := afterRead o chnid f.snder read ok, phase := .idle }

theorem flowSound {o chnid} {f g : Flow φ} {e : Event content behind files} (h : next o chnid f e = some g) :
    FlowStep o chnid f e g := by
  cases e with
  | tick =>
    obtain ⟨bucket,added,last⟩ := Option.bind_eq_some_iff.mp h
    cases Option.some.inj last
    exact .tick bucket added
  | fetch =>
    simp only [next] at h
    split at h <;> try contradiction
    rename_i idle
    split at h <;> try contradiction
    rename_i running
    obtain ⟨⟨n,bucket⟩,got,last⟩ := Option.bind_eq_some_iff.mp h
    cases Option.some.inj last
    exact .fetch n bucket idle running got
  | read server iterations =>
    simp only [next] at h
    split at h <;> try contradiction
    rename_i n granted
    obtain ⟨⟨read,refund⟩,called,last⟩ := Option.bind_eq_some_iff.mp h
    obtain ⟨found,looped,same⟩ := Option.bind_eq_some_iff.mp called
    cases Option.some.inj last
    have source := readSound looped
    simp only at same
    by_cases part : (n.toNat : Int) - found.len > 0
    · rw [if_pos part] at same
      cases Option.some.inj same
      exact .owing server iterations n read granted source (by omega)
    · rw [if_neg part] at same
      cases Option.some.inj same
      exact .charged server iterations n read granted source (by omega)
  | giveBack =>
    simp only [next] at h
    split at h <;> try contradiction
    rename_i read rest owes
    obtain ⟨bucket,added,last⟩ := Option.bind_eq_some_iff.mp h
    cases Option.some.inj last
    exact .giveBack read rest bucket owes added
  | send ok =>
    simp only [next] at h
    split at h <;> try contradiction
    rename_i read holds
    cases Option.some.inj h
    exact .send ok read holds

theorem afterReadTurn {o chnid} {s : Snder φ} {r : Turn φ} {read : Read φ} {refund : Option Int}
    (admitted : Admitted s r) (called : mlibReadchn r.os chnid r.tbfsize r.iterations s.ch = some (read,refund)) :
    snderNext o chnid s r = some (afterRead o chnid { s with ch := read.ch } read r.sendOk) := by
  rw [snderNext,if_pos admitted,called]
  simp only [Option.bind_eq_bind,Option.bind_some,afterRead]
  split
  · rfl
  · split <;> rfl

inductive ReadEffect (content : Path → Bytes) (ch : ChannelContext φ) (tbfsize : Nat) (read : Read φ) : Prop where
  | data (inside : ch.offset < (content (path ch)).length) (least : 1 ≤ read.len) (most : read.len ≤ tbfsize)
  | ended (past : (content (path ch)).length ≤ ch.offset) (len : read.len = 0)
      (pos : read.ch.pos = CyclicSearch.next ch.mp3glob.length ch.pos) (offset : read.ch.offset = 0)

theorem servedRead {ch : ChannelContext φ} {out os chnid tbfsize read}
    (streaming : Streaming content behind files ch out) (serves : Serves content behind files os)
    (positive : 1 ≤ tbfsize) (source : ReadSource os chnid tbfsize 0 ch read) : ReadEffect content ch tbfsize read := by
  obtain ⟨rfl,⟨fd,held,same⟩,_,_⟩ := streaming
  obtain ⟨bytes,got,piece,least⟩ := serves.reads 0 fd tbfsize ch.offset positive ⟨_,pathMember ch,same⟩
  have now : pread os 0 ch tbfsize = some bytes := by rw [pread,held]; exact got
  have length := readLength source
  cases source with
  | failed error next =>
    rw [now] at error
    contradiction
  | atEnd ended =>
    rw [now] at ended
    cases Option.some.inj ended
    obtain ⟨pos,offset,_⟩ := openNextServed serves chnid 0
    refine .ended ?_ rfl pos offset
    rw [← same]
    by_contra before
    exact least (by omega) rfl
  | data read filled =>
    rw [now] at read
    cases Option.some.inj read
    have some_ := List.length_pos_of_ne_nil filled
    have short := piece.length_le
    rw [same,List.length_drop] at short
    refine .data ?_ ?_ ?_ <;> simp only at length ⊢ <;> omega

def filled (content : Path → Bytes) (files : List Path) (pos : Nat) : Bool := !(content (files.getD pos [])).isEmpty

def emptyReads (content : Path → Bytes) (ch : ChannelContext φ) : Nat :=
  if ch.offset < (content (path ch)).length then 0
  else 1 + CyclicSearch.ahead (filled content ch.mp3glob) ch.mp3glob.length ch.mp3glob.length ch.pos

theorem filledHere (ch : ChannelContext φ) : filled content ch.mp3glob ch.pos = !(content (path ch)).isEmpty := by
  have inside := ch.inside
  simp [filled,List.getD,inside,path]

theorem filledSome (some_ : ∃ p ∈ files, content p ≠ []) :
    ∃ target < files.length, filled content files target = true := by
  obtain ⟨p,member,data⟩ := some_
  obtain ⟨target,below,there⟩ := List.getElem_of_mem member
  refine ⟨target,below,?_⟩
  simp [filled,List.getD,below,there,data]

theorem emptyReadsBound {ch : ChannelContext φ} (some_ : ∃ p ∈ ch.mp3glob, content p ≠ []) :
    emptyReads content ch ≤ ch.mp3glob.length := by
  unfold emptyReads
  split
  · exact Nat.zero_le _
  · obtain ⟨target,below,data⟩ := filledSome some_
    have near := CyclicSearch.aheadBelow ch.inside below data
    omega

theorem emptyReadsEnded {ch after : ChannelContext φ} (some_ : ∃ p ∈ ch.mp3glob, content p ≠ [])
    (past : (content (path ch)).length ≤ ch.offset) (playlist : after.mp3glob = ch.mp3glob)
    (pos : after.pos = CyclicSearch.next ch.mp3glob.length ch.pos) (offset : after.offset = 0) :
    emptyReads content after + 1 ≤ emptyReads content ch := by
  have here : emptyReads content ch =
      1 + CyclicSearch.ahead (filled content ch.mp3glob) ch.mp3glob.length ch.mp3glob.length ch.pos :=
    if_neg (Nat.not_lt_of_le past)
  rw [here]
  unfold emptyReads
  split
  · omega
  · rename_i empty
    obtain ⟨target,below,data⟩ := filledSome some_
    have refused : filled content ch.mp3glob (CyclicSearch.next ch.mp3glob.length ch.pos) = false := by
      rw [← pos,← playlist,filledHere]
      rw [offset] at empty
      simpa using empty
    rw [playlist,pos]
    have nearer := CyclicSearch.aheadNext ch.inside below data refused
    omega

def outstanding : Phase φ → Int
  | .granted n => n
  | .refunding _ rest => rest
  | _ => 0

def owed : Phase φ → Int
  | .refunding _ _ => 1
  | .sending _ => 1
  | _ => 0

def funds (f : Flow φ) : Int := f.bucket.token + outstanding f.phase

/- At most so many datagrams are left until the next tick. -/
def potential (content : Path → Bytes) (f : Flow φ) : Int :=
  owed f.phase + funds f * (f.snder.ch.mp3glob.length + 1) + emptyReads content f.snder.ch

structure Flowing (content : Path → Bytes) (behind : φ → Bytes) (files : List Path) (cps burst : Int) (f : Flow φ) :
    Prop where
  balanced : Balanced f.bucket
  rate : f.bucket.cps = cps
  depth : f.bucket.burst = burst
  streaming : ∃ out, Streaming content behind files f.snder.ch out
  low : 0 ≤ outstanding f.phase
  high : outstanding f.phase ≤ burst
  positive : ∀ n, f.phase = .granted n → 1 ≤ n

variable {cps burst : Int} {o : ByteOrder} {chnid : UInt8}

def gain (cps : Int) : Event content behind files → Int
  | .tick => cps * (files.length + 1)
  | _ => 0

theorem flowingStep {f g : Flow φ} {e : Event content behind files} (flowing : Flowing content behind files cps burst f)
    (step : FlowStep o chnid f e g) : Flowing content behind files cps burst g := by
  obtain ⟨balanced,rate,depth,⟨out,streaming⟩,low,high,positive⟩ := flowing
  cases step with
  | tick bucket added =>
    obtain ⟨c,made,kept,rate',depth',_⟩ := creditSpec balanced
    cases Option.some.inj (added.symm.trans made)
    exact ⟨kept,rate'.trans rate,depth'.trans depth,⟨out,streaming⟩,low,high,positive⟩
  | fetch n bucket idle running got =>
    obtain ⟨least,_,most,_,kept,rate',depth',_⟩ := fetchSpec balanced (by decide) got
    refine ⟨kept,rate'.trans rate,depth'.trans depth,⟨out,streaming⟩,?_,?_,?_⟩
    · simp only [outstanding]
      omega
    · simp only [outstanding]
      omega
    · intro m same
      cases Phase.granted.inj same
      exact least
  | charged server iterations n read granted source whole =>
    have least := positive n granted
    have moved := streamingRead streaming server.serves (by omega) source
    exact ⟨balanced,rate,depth,⟨_,moved⟩,Int.le_refl 0,by simp only [outstanding]; omega,by simp⟩
  | owing server iterations n read granted source part =>
    have least := positive n granted
    have moved := streamingRead streaming server.serves (by omega) source
    have length := readLength source
    rw [granted] at high
    simp only [outstanding] at high
    refine ⟨balanced,rate,depth,⟨_,moved⟩,?_,?_,by simp⟩
    · simp only [outstanding]
      omega
    · simp only [outstanding]
      omega
  | giveBack read rest bucket owes added =>
    rw [owes] at low high
    simp only [outstanding] at low high
    obtain ⟨c,made,kept,rate',depth',_⟩ := returnSpec balanced low (by omega)
    cases Option.some.inj (added.symm.trans made)
    exact ⟨kept,rate'.trans rate,depth'.trans depth,⟨out,streaming⟩,Int.le_refl 0,by simp only [outstanding]; omega,
      by simp⟩
  | send ok read holds =>
    have same : (afterRead o chnid f.snder read ok).ch = f.snder.ch := by
      unfold afterRead
      repeat' split
      all_goals rfl
    exact ⟨balanced,rate,depth,⟨out,by rw [same]; exact streaming⟩,Int.le_refl 0,by simp only [outstanding]; omega,
      by simp⟩

theorem afterReadSent (s : Snder φ) (read : Read φ) (ok : Bool) :
    ((afterRead o chnid s read ok).sent.length : Int) ≤ s.sent.length + 1 := by
  unfold afterRead
  repeat' split
  all_goals simp

/- A read pays for the datagram that will carry it: with an octet of the funds, or with
an end of file. -/
theorem readPays {ch after : ChannelContext φ} {before rest tokens : Int}
    (some_ : ∃ p ∈ ch.mp3glob, content p ≠ []) (playlist : after.mp3glob = ch.mp3glob)
    (cost : rest + 1 ≤ before ∨ rest ≤ before ∧ emptyReads content after + 1 ≤ emptyReads content ch) :
    1 + (tokens + rest) * (after.mp3glob.length + 1) + emptyReads content after ≤
      (tokens + before) * (ch.mp3glob.length + 1) + emptyReads content ch := by
  have bound := @emptyReadsBound φ content after (by rw [playlist]; exact some_)
  rw [playlist] at bound ⊢
  have lap : (0 : Int) ≤ ch.mp3glob.length + 1 := by omega
  rcases cost with octet | ⟨same,nearer⟩
  · have paid := Int.mul_le_mul_of_nonneg_right (by omega : tokens + rest + 1 ≤ tokens + before) lap
    rw [Int.add_mul] at paid
    omega
  · have paid := Int.mul_le_mul_of_nonneg_right (by omega : tokens + rest ≤ tokens + before) lap
    omega

theorem readCost {ch : ChannelContext φ} {out os n read rest} (streaming : Streaming content behind files ch out)
    (serves : Serves content behind files os) (some_ : ∃ p ∈ files, content p ≠ []) (least : 1 ≤ n)
    (source : ReadSource os chnid n.toNat 0 ch read) (left : rest ≤ n - read.len) :
    rest + 1 ≤ n ∨ rest ≤ n ∧ emptyReads content read.ch + 1 ≤ emptyReads content ch := by
  have same := readSame source
  cases servedRead streaming serves (by omega) source with
  | data inside least most => exact .inl (by omega)
  | ended past len pos offset =>
    rw [← streaming.mp3glob] at some_
    exact .inr ⟨by omega,emptyReadsEnded some_ past same.mp3glob pos offset⟩

theorem potentialStep {f g : Flow φ} {e : Event content behind files}
    (flowing : Flowing content behind files cps burst f) (some_ : ∃ p ∈ files, content p ≠ [])
    (step : FlowStep o chnid f e g) :
    potential content g + g.snder.sent.length ≤ potential content f + f.snder.sent.length + gain cps e := by
  obtain ⟨balanced,rate,depth,⟨out,streaming⟩,low,high,positive⟩ := flowing
  have playlist := streaming.mp3glob
  have here := some_
  rw [← playlist] at here
  cases step with
  | tick bucket added =>
    obtain ⟨c,made,_,_,_,_,most,_⟩ := creditSpec balanced
    cases Option.some.inj (added.symm.trans made)
    have lap : (0 : Int) ≤ files.length + 1 := by omega
    have paid := Int.mul_le_mul_of_nonneg_right (by simp only [funds]; omega :
      funds { f with bucket } ≤ funds f + cps) lap
    rw [Int.add_mul] at paid
    simp only [potential,gain,playlist]
    omega
  | fetch n bucket idle running got =>
    obtain ⟨_,_,_,spent,_⟩ := fetchSpec balanced (by decide) got
    have same : funds { f with bucket, phase := .granted n } = funds f := by
      simp only [funds,outstanding,idle,spent]
      omega
    simp only [potential,same,gain,owed,idle]
    omega
  | charged server iterations n read granted source whole =>
    have least := positive n granted
    have paid := @readPays φ content f.snder.ch read.ch n 0 f.bucket.token here (readSame source).mp3glob
      (readCost streaming server.serves some_ least source (by
        have length := readLength source
        omega))
    simp only [potential,funds,outstanding,owed,granted,gain]
    omega
  | owing server iterations n read granted source part =>
    have least := positive n granted
    have left : n.toNat - read.len ≤ n - read.len := by omega
    have cost := readCost streaming server.serves some_ least source left
    have paid := @readPays φ content f.snder.ch read.ch n (n.toNat - read.len) f.bucket.token here
      (readSame source).mp3glob cost
    simp only [potential,funds,outstanding,owed,granted,gain]
    omega
  | giveBack read rest bucket owes added =>
    rw [owes] at low high
    simp only [outstanding] at low high
    obtain ⟨c,made,_,_,_,_,most,_⟩ := returnSpec balanced low (by omega)
    cases Option.some.inj (added.symm.trans made)
    have lap : (0 : Int) ≤ f.snder.ch.mp3glob.length + 1 := by omega
    have paid := Int.mul_le_mul_of_nonneg_right (by simp only [funds,outstanding,owes]; omega :
      funds { f with bucket, phase := .sending read } ≤ funds f) lap
    simp only [potential,owed,gain,owes]
    omega
  | send ok read holds =>
    have sent := @afterReadSent φ o chnid f.snder read ok
    have same : (afterRead o chnid f.snder read ok).ch = f.snder.ch := by
      unfold afterRead
      repeat' split
      all_goals rfl
    simp only [potential,funds,outstanding,owed,holds,gain,same]
    omega

theorem flowingInit {ch : ChannelContext φ} {slot : Nat} (params : Params cps burst)
    (ready : Ready content behind ch) : Flowing content behind ch.mp3glob cps burst (flowInit cps burst slot ch) := by
  have depth := params.depth
  exact ⟨⟨params,Int.le_refl 0,by simp only [flowInit]; omega⟩,rfl,rfl,⟨[],streamingReady ready⟩,Int.le_refl 0,
    by simp only [flowInit,outstanding]; omega,by simp [flowInit]⟩

/- At most the grant in hand and a full bucket, and a lap around the playlist after each octet. -/
def window (burst : Int) (files : Nat) : Nat := (2 * burst + 1).toNat * (files + 1)

theorem potentialWindow {f : Flow φ} (flowing : Flowing content behind files cps burst f)
    (some_ : ∃ p ∈ files, content p ≠ []) : potential content f ≤ window burst files.length := by
  obtain ⟨balanced,rate,depth,⟨out,streaming⟩,low,high,positive⟩ := flowing
  have playlist := streaming.mp3glob
  rw [← playlist] at some_
  have lap : (0 : Int) ≤ files.length + 1 := by omega
  have bound := @emptyReadsBound φ content f.snder.ch some_
  have cap := balanced.high
  have least := balanced.params.depth
  have paid := Int.mul_le_mul_of_nonneg_right (by simp only [funds]; omega : funds f ≤ 2 * burst) lap
  have due : owed f.phase ≤ 1 := by cases f.phase <;> simp [owed]
  have size : (window burst files.length : Int) = 2 * burst * (files.length + 1) + (files.length + 1) := by
    rw [window,Nat.cast_mul,Int.toNat_of_nonneg (by omega),Int.add_mul]
    push_cast
    omega
  rw [size]
  simp only [potential,playlist] at bound ⊢
  omega

def Paced (o : ByteOrder) (chnid : UInt8) (cps burst : Int) (slot : Nat) (content : Path → Bytes) (behind : φ → Bytes)
    (ch : ChannelContext φ) (bound : Nat) : Prop :=
  ∀ (before during : List (Event content behind ch.mp3glob)) f g,
    exec (next o chnid) (flowInit cps burst slot ch) before = some f → exec (next o chnid) f during = some g →
    Event.tick ∉ during → g.snder.sent.length ≤ f.snder.sent.length + bound

theorem flowingRun {ch : ChannelContext φ} {slot : Nat} {events : List (Event content behind ch.mp3glob)} {f}
    (params : Params cps burst) (ready : Ready content behind ch)
    (run : exec (next o chnid) (flowInit cps burst slot ch) events = some f) :
    Flowing content behind ch.mp3glob cps burst f :=
  invariant (flowingInit params ready) (fun _ _ _ flowing step => flowingStep flowing (flowSound step)) run

theorem gainNone {events : List (Event content behind files)} (none_ : Event.tick ∉ events) :
    (events.map (gain cps)).sum = 0 := by
  refine List.sum_eq_zero ?_
  intro x member
  obtain ⟨e,there,rfl⟩ := List.mem_map.mp member
  cases e with
  | tick => exact absurd there none_
  | _ => rfl

theorem potentialNonneg {f : Flow φ} (flowing : Flowing content behind files cps burst f) :
    0 ≤ potential content f := by
  have token := flowing.balanced.low
  have low := flowing.low
  have paid : 0 ≤ funds f * (f.snder.ch.mp3glob.length + 1) :=
    Int.mul_nonneg (by simp only [funds]; omega) (by omega)
  have due : 0 ≤ owed f.phase := by cases f.phase <;> simp [owed]
  simp only [potential]
  omega

theorem fedPaced {ch : ChannelContext φ} {slot : Nat} (params : Params cps burst) (ready : Ready content behind ch)
    (some_ : ∃ p ∈ ch.mp3glob, content p ≠ []) :
    Paced o chnid cps burst slot content behind ch (window burst ch.mp3glob.length) := by
  intro before during f g first later none_
  have flowing := flowingRun params ready first
  have last := invariant flowing (fun _ _ _ flowing step => flowingStep flowing (flowSound step)) later
  have paid : potential content g + g.snder.sent.length + (during.map fun _ => (0 : Int)).sum ≤
      potential content f + f.snder.sent.length + (during.map (gain cps)).sum := by
    refine @balance _ _ (next o chnid) (Flowing content behind ch.mp3glob cps burst)
      (fun f => potential content f + f.snder.sent.length) (gain cps) (fun _ => 0) ?_ ?_ f g during flowing later
    · exact fun _ _ _ flowing step => flowingStep flowing (flowSound step)
    · intro f e g flowing step
      rw [Int.add_zero]
      exact potentialStep flowing some_ (flowSound step)
  rw [gainNone none_] at paid
  have most := potentialWindow flowing some_
  have least := potentialNonneg last
  have none' : (during.map fun _ => (0 : Int)).sum = 0 := List.sum_eq_zero (by simp)
  omega

structure Dry (f : Flow φ) : Prop where
  rate : f.bucket.cps = 0
  depth : 0 ≤ f.bucket.burst
  token : f.bucket.token = 0
  idle : f.phase = .idle
  silent : f.snder.sent = []

theorem dryStep {f g : Flow φ} {e : Event content behind files} (dry : Dry f) (step : FlowStep o chnid f e g) :
    Dry g := by
  obtain ⟨rate,depth,token,idle,silent⟩ := dry
  cases step with
  | tick bucket added =>
    rw [creditSum added]
    exact ⟨rate,depth,by simp only; omega,idle,silent⟩
  | fetch n bucket free running got => simp [fetchtoken,token] at got
  | charged server iterations n read granted => rw [idle] at granted; contradiction
  | owing server iterations n read granted => rw [idle] at granted; contradiction
  | giveBack read rest bucket owes => rw [idle] at owes; contradiction
  | send ok read holds => rw [idle] at holds; contradiction

theorem dryPaced {ch : ChannelContext φ} {slot : Nat} (params : Params 0 burst) :
    Paced o chnid 0 burst slot content behind ch (window burst ch.mp3glob.length) := by
  intro before during f g first later _
  have depth := params.depth
  have start : Dry (flowInit 0 burst slot ch) := ⟨rfl,by simp only [flowInit]; omega,rfl,rfl,rfl⟩
  have middle : Dry f := invariant start (fun _ _ _ dry step => dryStep dry (flowSound step)) first
  have last : Dry g := invariant middle (fun _ _ _ dry step => dryStep dry (flowSound step)) later
  rw [last.silent]
  exact Nat.zero_le _

theorem returnWhole {b c : Mytbf} {size n : Int} (balanced : Balanced b) (got : fetchtoken b size = some (n,c)) :
    returntoken c n = some b := by
  have low := balanced.low
  have high := balanced.high
  have fits := balanced.params.refundFits
  have least := balanced.params.depth
  unfold fetchtoken at got
  split at got <;> try contradiction
  obtain ⟨rfl,rfl⟩ := Prod.mk.inj (Option.some.inj got)
  have back : ∀ k : Int, b.token - k + k = b.token := fun k => by omega
  rw [returntoken,addIntInside (by rw [back]; exact low) (by rw [back]; omega),back]
  simp only [Option.bind_eq_bind,Option.bind_some,if_neg (by omega : ¬ b.token > b.burst)]

structure Spinning (content : Path → Bytes) (behind : φ → Bytes) (files : List Path) (b : Mytbf) (f : Flow φ) :
    Prop where
  bucket : f.bucket = b
  idle : f.phase = .idle
  running : f.snder.running = true
  streaming : ∃ out, Streaming content behind files f.snder.ch out

theorem spin {b : Mytbf} {f : Flow φ} (balanced : Balanced b) (some_ : 1 ≤ b.token)
    (empty : ∀ p ∈ files, content p = []) (server : FileServer content behind files)
    (spinning : Spinning content behind files b f) :
    ∃ g, exec (next o chnid) f [.fetch,.read server 1,.giveBack,.send true] = some g ∧
      Spinning content behind files b g ∧ g.snder.sent.length = f.snder.sent.length + 1 := by
  obtain ⟨bucket,idle,running,out,streaming⟩ := spinning
  obtain ⟨⟨n,left⟩,got⟩ : ∃ r, fetchtoken b readSize = some r :=
    ⟨_,if_neg (by omega : ¬ b.token ≤ 0)⟩
  obtain ⟨least,_⟩ := fetchSpec balanced (by decide) got
  obtain ⟨read,looped⟩ := @turnEnds φ content behind files f.snder.ch out server.os chnid n.toNat 1 streaming
    server.serves (by omega) (by omega)
  have source := readSound looped
  have nothing : content (path f.snder.ch) = [] := by
    refine empty _ ?_
    rw [← streaming.mp3glob]
    exact pathMember _
  cases servedRead streaming server.serves (by omega) source with
  | data inside least most =>
    rw [nothing] at inside
    exact absurd inside (Nat.not_lt_zero _)
  | ended past len pos offset =>
    have called : mlibReadchn server.os chnid n.toNat 1 f.snder.ch = some (read,some n) := by
      have whole : ((n.toNat : Int) - read.len) = n := by omega
      rw [mlibReadchn,looped]
      simp only [Option.bind_eq_bind,Option.bind_some,whole,if_pos (by omega : n > 0)]
    have moved := streamingRead streaming server.serves (by omega) source
    refine ⟨⟨b,afterRead o chnid { f.snder with ch := read.ch } read true,.idle⟩,?_,⟨rfl,rfl,?_,out ++ read.buf,?_⟩,?_⟩
    · simp [next,idle,running,bucket,got,called,returnWhole balanced got]
    · simp [afterRead,len,running]
    · simpa [afterRead,len] using moved
    · simp [afterRead,len]

theorem spinning {b : Mytbf} {f : Flow φ} (balanced : Balanced b) (some_ : 1 ≤ b.token)
    (empty : ∀ p ∈ files, content p = []) (server : FileServer content behind files)
    (here : Spinning content behind files b f) (n : Nat) :
    ∃ (during : List (Event content behind files)) (g : Flow φ), exec (next o chnid) f during = some g ∧
      Event.tick ∉ during ∧ g.snder.sent.length = f.snder.sent.length + n := by
  induction n generalizing f with
  | zero => exact ⟨[],f,rfl,by simp,rfl⟩
  | succ n ih =>
    obtain ⟨middle,first,still,one⟩ := @spin φ content behind files o chnid b f balanced some_ empty server here
    obtain ⟨rest,g,later,none_,more⟩ := ih still
    refine ⟨[.fetch,.read server 1,.giveBack,.send true] ++ rest,g,?_,?_,by omega⟩
    · rw [execAppend,first]
      exact later
    · simp [none_]

theorem serverExists (openable : ∀ p ∈ files, ∃ fd, behind fd = content p) :
    Nonempty (FileServer content behind files) := by
  classical
  let os : Os φ := {
    openFile := fun _ _ p => if h : ∃ fd, behind fd = content p then some h.choose else none
    preadFile := fun _ fd n offset => some (((behind fd).drop offset).take n)
    short := by
      intro _ fd n offset bytes got
      cases Option.some.inj got
      exact List.length_take_le n _ }
  refine ⟨os,?_,?_⟩
  · intro k i p member
    have h := openable p member
    exact ⟨h.choose,dif_pos h,h.choose_spec⟩
  · intro k fd n offset positive _
    refine ⟨_,rfl,List.take_prefix n _,?_⟩
    intro before
    apply List.ne_nil_of_length_pos
    rw [List.length_take,List.length_drop]
    omega

theorem emptyUnpaced {ch : ChannelContext φ} {slot : Nat} (params : Params cps burst) (rate : 1 ≤ cps)
    (ready : Ready content behind ch) (openable : ∀ p ∈ ch.mp3glob, ∃ fd, behind fd = content p)
    (empty : ∀ p ∈ ch.mp3glob, content p = []) (bound : Nat) :
    ¬ Paced o chnid cps burst slot content behind ch bound := by
  intro paced
  obtain ⟨server⟩ := serverExists openable
  have initial := @flowingInit φ content behind cps burst ch slot params ready
  obtain ⟨b,added,balanced,_⟩ := creditSpec initial.balanced
  have some_ := creditPositive initial.balanced rate added
  have first : exec (next o chnid) (flowInit cps burst slot ch)
      [(.tick : Event content behind ch.mp3glob)] = some { flowInit cps burst slot ch with bucket := b } := by
    simp [next,added]
  have here : Spinning content behind ch.mp3glob b { flowInit cps burst slot ch with bucket := b } :=
    ⟨rfl,rfl,rfl,initial.streaming⟩
  obtain ⟨during,g,later,none_,more⟩ :=
    @spinning φ content behind _ o chnid b _ balanced some_ empty server here (bound+1)
  have most := paced _ during _ g first later none_
  omega

def Fed (cps : Int) (content : Path → Bytes) (files : List Path) : Prop := cps = 0 ∨ ∃ p ∈ files, content p ≠ []

theorem flowControl {ch : ChannelContext φ} (o : ByteOrder) (chnid : UInt8) (slot : Nat) (params : Params cps burst)
    (ready : Ready content behind ch) (openable : ∀ p ∈ ch.mp3glob, ∃ fd, behind fd = content p) :
    (Paced o chnid cps burst slot content behind ch (window burst ch.mp3glob.length) ↔ Fed cps content ch.mp3glob) ∧
    ((∃ bound, Paced o chnid cps burst slot content behind ch bound) ↔ Fed cps content ch.mp3glob) := by
  have enough : Fed cps content ch.mp3glob →
      Paced o chnid cps burst slot content behind ch (window burst ch.mp3glob.length) := by
    rintro (rfl | some_)
    · exact dryPaced params
    · exact fedPaced params ready some_
  have needed : ∀ bound, Paced o chnid cps burst slot content behind ch bound → Fed cps content ch.mp3glob := by
    intro bound paced
    by_contra hungry
    obtain ⟨rate,empty⟩ := not_or.mp hungry
    have positive := params.rate
    refine emptyUnpaced params (by omega) ready openable ?_ bound paced
    intro p member
    by_contra data
    exact empty ⟨p,member,data⟩
  exact ⟨⟨needed _,enough⟩,fun ⟨bound,paced⟩ => needed bound paced,fun fed => ⟨_,enough fed⟩⟩

theorem samplePaced : Paced .little 5 40960 204800 0 sampleContent sampleContent sampleChannel (window 204800 2) :=
  (@flowControl _ _ _ 40960 204800 sampleChannel .little 5 0 (by decide) ⟨rfl,rfl,_,rfl,rfl⟩ fun p _ => ⟨p,rfl⟩).1.mpr
    (.inr ⟨[1],by decide,by decide⟩)

def emptyChannel : ChannelContext Path := ⟨5,[],[[3]],0,some [3],0,0,by decide⟩

theorem emptyFlood : ¬ ∃ bound, Paced .little 5 40960 204800 0 sampleContent sampleContent emptyChannel bound := by
  rintro ⟨bound,paced⟩
  exact @emptyUnpaced _ sampleContent sampleContent 40960 204800 .little 5 emptyChannel 0 (by decide) (by decide)
    ⟨rfl,rfl,_,rfl,rfl⟩ (fun p _ => ⟨p,rfl⟩) (by decide) bound paced

end IPv4Media.FlowControl
