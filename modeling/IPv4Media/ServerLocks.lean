import IPv4Media.ChannelBuckets
import IPv4Media.TimerThreads
import IPv4Media.TuneIn

/-! The server lock by lock, on what main has scanned. Each thr_channel_snder goes through
mytbf_fetchtoken, mytbf_checktoken and mytbf_returntoken as TimerThreads has them, and
SIGALRM comes to any thread at any time; a thread does its own work only outside these calls
and while no alrm_handle runs on it. Told by what is done to the buckets it is the server of
Server. -/
namespace IPv4Media.ServerLocks
open Octets Proto Playlist ChannelSender ServerStream TokenBucket TimerModule MediaLibrary ListCodec Formats Execution
open Interleaving
open FlowControl (Phase Flow FileServer afterRead)
open Server (Station Thread Label Wire owner serverNext history)
open ChannelBuckets (Equipped scannedEquipped)
open ChannelIds (IdsSuffice)
open StartUp (World Running Media main mainSound station staffedMain staffedReady ownerDir)
open StartUp (plainDir discDir sampleWorld sampleMedia)
open TuneIn (serving discStation discStep)
open TimerThreads (Pc Handler Move Step HandlerStep started free moveSound)

variable {φ : Type}

def thrList : Nat := 1
def thrChannel {n : Nat} (k : Fin n) : Nat := k.val + 2

/- The phase of a channel's thread is that of Server: in a call it is the one the call
leaves when it has done to the bucket what it does. listed is what thr_list has sent. -/
structure Process (st : Station φ) where
  timer : TimerThreads.State
  snder : Fin st.owners.length → Snder φ
  phase : Fin st.owners.length → Phase φ
  listed : List Bytes
  log : List (Thread st × Bytes)

inductive Event (st : Station φ)
  | fetch (k : Fin st.owners.length)
  | check (k : Fin st.owners.length)
  | read (k : Fin st.owners.length) (server : FileServer st.content st.behind (owner st k).mp3glob) (iterations : Nat)
  | giveBack (k : Fin st.owners.length)
  | send (k : Fin st.owners.length) (ok : Bool)
  | list (ok : Bool)
  | timer (e : TimerThreads.Event)

def start (st : Station φ) (mod : Module) : Process st :=
  ⟨started mod,fun k => snderInit (owner st k),fun _ => .idle,[],[]⟩

variable {st : Station φ}

def channelOf (st : Station φ) (t : Nat) : Option (Fin st.owners.length) :=
  (List.finRange st.owners.length).find? fun k => thrChannel k = t

/- The channel whose bucket is at an address. Some buckets are nobody's: path2entry gives
up a directory after mytbf_init. -/
def bucketOf (st : Station φ) (address : Nat) : Option (Fin st.owners.length) :=
  (List.finRange st.owners.length).find? fun k => (owner st k).tbf = address

def stepped (s : Process st) (t : Nat) : Option (Fin st.owners.length × Phase φ) := do
  let k ← channelOf st t
  match s.timer.pc t with
  | .fetchTest address size => do
    let b ← s.timer.mod.bucket address
    let (n,_) ← fetchtoken b size
    some (k,.granted n)
  | .returnLock _ _ =>
    match s.phase k with
    | .refunding read _ => some (k,.sending read)
    | _ => none
  | _ => none

def setPhase (s : Process st) : Option (Fin st.owners.length × Phase φ) → Process st
  | none => s
  | some (k,phase) => { s with phase := Function.update s.phase k phase }

def call (s : Process st) (e : TimerThreads.Event) : Option (Process st) :=
  (TimerThreads.next s.timer e).map fun timer => { s with timer }

def readPhase (read : Read φ) : Option Int → Phase φ
  | none => .sending read
  | some rest => .refunding read rest

def timerNext (s : Process st) : TimerThreads.Event → Option (Process st)
  | .wake t => call s (.wake t)
  | .step t => (call s (.step t)).map fun u => setPhase u (stepped s t)
  | .alarm t => call s (.alarm t)
  | .handle t => call s (.handle t)
  | _ => none

/- mlib_readchn's log line calls mytbf_checktoken between the fetch and the loop. -/
def next (s : Process st) : Event st → Option (Process st)
  | .fetch k => match s.phase k with
    | .idle =>
      if (s.snder k).running then call s (.fetch (thrChannel k) (owner st k).tbf readSize) else none
    | _ => none
  | .check k => match s.phase k with
    | .granted _ => call s (.check (thrChannel k) (owner st k).tbf)
    | _ => none
  | .read k server iterations => match s.phase k with
    | .granted n =>
      if free s.timer (thrChannel k) then do
        let (read,refund) ← mlibReadchn server.os (owner st k).chnid n.toNat iterations (s.snder k).ch
        some { s with
          snder := Function.update s.snder k { s.snder k with ch := read.ch }
          phase := Function.update s.phase k (readPhase read refund) }
      else none
    | _ => none
  | .giveBack k => match s.phase k with
    | .refunding _ rest => call s (.giveBack (thrChannel k) (owner st k).tbf rest)
    | _ => none
  | .send k ok => match s.phase k with
    | .sending read =>
      if free s.timer (thrChannel k) then
        let snder := afterRead st.order (owner st k).chnid (s.snder k) read ok
        some { s with
          snder := Function.update s.snder k snder
          phase := Function.update s.phase k .idle
          log := s.log ++ (snder.sent.drop (s.snder k).sent.length).map fun d => (some k,d) }
      else none
    | _ => none
  | .list ok =>
    if free s.timer thrList then
      let sent := if ok then [listOctets st.order st.entries] else []
      some { s with listed := s.listed ++ sent, log := s.log ++ sent.map fun d => (none,d) }
    else none
  | .timer e => timerNext s e

def deed (s : Process st) : Event st → Option (Sigma (Label st))
  | .read k server iterations => some ⟨some k,.read server iterations⟩
  | .send k ok => some ⟨some k,.send ok⟩
  | .list ok => some ⟨none,ok⟩
  | .timer (.step t) => do
    let (k,phase) ← stepped s t
    match phase with
    | .granted _ => some ⟨some k,.fetch⟩
    | _ => some ⟨some k,.giveBack⟩
  | .timer (.handle t) =>
    match s.timer.handler t with
    | some (.lockBucket _ address) => do
      let k ← bucketOf st address
      some ⟨some k,.tick⟩
    | _ => none
  | _ => none

inductive Act (s : Process st) : Event st → Process st → Prop where
  | fetch (k : Fin st.owners.length) (u : TimerThreads.State) (idle : s.phase k = .idle)
      (running : (s.snder k).running = true)
      (move : Move s.timer (.fetch (thrChannel k) (owner st k).tbf readSize) u) : Act s (.fetch k) { s with timer := u }
  | check (k : Fin st.owners.length) (n : Int) (u : TimerThreads.State) (granted : s.phase k = .granted n)
      (move : Move s.timer (.check (thrChannel k) (owner st k).tbf) u) : Act s (.check k) { s with timer := u }
  | read (k : Fin st.owners.length) (server : FileServer st.content st.behind (owner st k).mp3glob) (iterations : Nat)
      (n : Int) (read : Read φ) (refund : Option Int) (granted : s.phase k = .granted n)
      (called : mlibReadchn server.os (owner st k).chnid n.toNat iterations (s.snder k).ch = some (read,refund)) :
      Act s (.read k server iterations) { s with
        snder := Function.update s.snder k { s.snder k with ch := read.ch }
        phase := Function.update s.phase k (readPhase read refund) }
  | giveBack (k : Fin st.owners.length) (read : Read φ) (rest : Int) (u : TimerThreads.State)
      (owes : s.phase k = .refunding read rest)
      (move : Move s.timer (.giveBack (thrChannel k) (owner st k).tbf rest) u) : Act s (.giveBack k) { s with timer := u }
  | send (k : Fin st.owners.length) (ok : Bool) (read : Read φ) (holds : s.phase k = .sending read) :
      Act s (.send k ok) { s with
        snder := Function.update s.snder k (afterRead st.order (owner st k).chnid (s.snder k) read ok)
        phase := Function.update s.phase k .idle
        log := s.log ++ ((afterRead st.order (owner st k).chnid (s.snder k) read ok).sent.drop
          (s.snder k).sent.length).map fun d => (some k,d) }
  | list (ok : Bool) (sent : List Bytes) (whole : sent = if ok then [listOctets st.order st.entries] else []) :
      Act s (.list ok) { s with listed := s.listed ++ sent, log := s.log ++ sent.map fun d => (none,d) }
  | wake (t : Nat) (u : TimerThreads.State) (move : Move s.timer (.wake t) u) : Act s (.timer (.wake t)) { s with timer := u }
  | step (t : Nat) (u : TimerThreads.State) (move : Move s.timer (.step t) u) :
      Act s (.timer (.step t)) (setPhase { s with timer := u } (stepped s t))
  | alarm (t : Nat) (u : TimerThreads.State) (move : Move s.timer (.alarm t) u) :
      Act s (.timer (.alarm t)) { s with timer := u }
  | handle (t : Nat) (u : TimerThreads.State) (move : Move s.timer (.handle t) u) :
      Act s (.timer (.handle t)) { s with timer := u }

theorem callSound {s v : Process st} {e : TimerThreads.Event} (h : call s e = some v) :
    ∃ u, Move s.timer e u ∧ v = { s with timer := u } := by
  obtain ⟨u,made,last⟩ := Option.map_eq_some_iff.mp h
  exact ⟨u,moveSound made,last.symm⟩

theorem actSound {s v : Process st} {e : Event st} (h : next s e = some v) : Act s e v := by
  cases e with
  | fetch k =>
    simp only [next] at h
    split at h <;> try contradiction
    rename_i idle
    split at h <;> try contradiction
    rename_i running
    obtain ⟨u,move,rfl⟩ := callSound h
    exact .fetch k u idle running move
  | check k =>
    simp only [next] at h
    split at h <;> try contradiction
    rename_i n granted
    obtain ⟨u,move,rfl⟩ := callSound h
    exact .check k n u granted move
  | read k server iterations =>
    simp only [next] at h
    split at h <;> try contradiction
    rename_i n granted
    split at h <;> try contradiction
    obtain ⟨⟨read,refund⟩,called,last⟩ := Option.bind_eq_some_iff.mp h
    cases Option.some.inj last
    exact .read k server iterations n read refund granted called
  | giveBack k =>
    simp only [next] at h
    split at h <;> try contradiction
    rename_i read rest owes
    obtain ⟨u,move,rfl⟩ := callSound h
    exact .giveBack k read rest u owes move
  | send k ok =>
    simp only [next] at h
    split at h <;> try contradiction
    rename_i read holds
    split at h <;> try contradiction
    cases Option.some.inj h
    exact .send k ok read holds
  | list ok =>
    simp only [next] at h
    split at h <;> try contradiction
    cases Option.some.inj h
    exact .list ok _ rfl
  | timer e =>
    cases e with
    | wake t =>
      obtain ⟨u,move,rfl⟩ := callSound h
      exact .wake t u move
    | step t =>
      obtain ⟨v,made,rfl⟩ := Option.map_eq_some_iff.mp h
      obtain ⟨u,move,rfl⟩ := callSound made
      exact .step t u move
    | alarm t =>
      obtain ⟨u,move,rfl⟩ := callSound h
      exact .alarm t u move
    | handle t =>
      obtain ⟨u,move,rfl⟩ := callSound h
      exact .handle t u move
    | _ => contradiction

def Inside (tbf : Nat) (running : Bool) (phase : Phase φ) : Pc → Prop
  | .outside => True
  | .fetchLock address size => address = tbf ∧ size = readSize ∧ phase = .idle ∧ running = true
  | .fetchTest address size => address = tbf ∧ size = readSize ∧ phase = .idle ∧ running = true
  | .fetchWait address size => address = tbf ∧ size = readSize ∧ phase = .idle ∧ running = true
  | .fetchWoken address size => address = tbf ∧ size = readSize ∧ phase = .idle ∧ running = true
  | .fetchUnlock _ => True
  | .returnLock address size => address = tbf ∧ ∃ read, phase = .refunding read size
  | .returnUnlock _ => True
  | .checkLock _ => True
  | .checkUnlock _ => True
  | _ => False

def Ranged : Phase φ → Prop
  | .granted n => 1 ≤ n ∧ n ≤ readSize
  | .refunding _ rest => 0 ≤ rest ∧ rest ≤ readSize
  | _ => True

/- The thread of a channel and its bucket, as Server has them in one. There a bucket's slot
is not known and its address stands for it. -/
structure Holds (s : Process st) (w : Wire st) (k : Fin st.owners.length) (b : Mytbf) : Prop where
  live : s.timer.mod.bucket (owner st k).tbf = some b
  flow : w.part (some k) = (⟨{ b with pos := (owner st k).tbf },s.snder k,s.phase k⟩ : Flow φ)
  depth : b.burst = tbfBurst

structure Calls (s : Process st) : Prop where
  inside : ∀ k, Inside (owner st k).tbf (s.snder k).running (s.phase k) (s.timer.pc (thrChannel k))
  others : ∀ t, (∀ k : Fin st.owners.length, thrChannel k ≠ t) → s.timer.pc t = .outside

structure Related (s : Process st) (w : Wire st) : Prop where
  holds : ∀ k, ∃ b, Holds s w k b
  ranged : ∀ k, Ranged (s.phase k)
  calls : Calls s
  listed : w.part none = s.listed
  log : w.log = s.log

def Apart (st : Station φ) : Prop := ∀ j k, (owner st j).tbf = (owner st k).tbf → j = k

theorem thrChannelInj {n : Nat} {j k : Fin n} (same : thrChannel j = thrChannel k) : j = k := by
  apply Fin.ext
  unfold thrChannel at same
  omega

theorem channelOfSelf (k : Fin st.owners.length) : channelOf st (thrChannel k) = some k := by
  cases found : channelOf st (thrChannel k) with
  | none =>
    have missed := List.find?_eq_none.mp found k (List.mem_finRange k)
    simp at missed
  | some j =>
    have here := List.find?_some found
    simp only [decide_eq_true_eq] at here
    rw [thrChannelInj here]

theorem bucketOfOther {address : Nat} (none_ : bucketOf st address = none) (k : Fin st.owners.length) :
    (owner st k).tbf ≠ address := by
  have missed := List.find?_eq_none.mp none_ k (List.mem_finRange k)
  simpa using missed

theorem creditPlaced {b c : Mytbf} (added : credit b = some c) (pos : Nat) :
    credit { b with pos } = some { c with pos } := by
  obtain ⟨sum,paid,last⟩ := Option.bind_eq_some_iff.mp added
  cases Option.some.inj last
  exact Option.bind_eq_some_iff.mpr ⟨sum,paid,rfl⟩

theorem returnPlaced {b c : Mytbf} {size : Int} (added : returntoken b size = some c) (pos : Nat) :
    returntoken { b with pos } size = some { c with pos } := by
  obtain ⟨sum,paid,last⟩ := Option.bind_eq_some_iff.mp added
  cases Option.some.inj last
  exact Option.bind_eq_some_iff.mpr ⟨sum,paid,rfl⟩

theorem fetchTaken {b c : Mytbf} {size n : Int} (got : fetchtoken b size = some (n,c)) :
    c = { b with token := b.token - n } := by
  unfold fetchtoken at got
  split at got <;> try contradiction
  obtain ⟨rfl,rfl⟩ := Prod.mk.inj (Option.some.inj got)
  rfl

theorem fetchPlaced {b c : Mytbf} {size n : Int} (got : fetchtoken b size = some (n,c)) (pos : Nat) :
    fetchtoken { b with pos } size = some (n,{ c with pos }) := by
  unfold fetchtoken at got ⊢
  split at got <;> try contradiction
  rename_i some_
  obtain ⟨rfl,rfl⟩ := Prod.mk.inj (Option.some.inj got)
  rw [if_neg some_]

abbrev channelNext (st : Station φ) (k : Fin st.owners.length) (f : Flow φ)
    (e : FlowControl.Event st.content st.behind (owner st k).mp3glob) : Option (Flow φ) :=
  FlowControl.next st.order (owner st k).chnid f e

theorem channelMoved {w : Wire st} {k : Fin st.owners.length}
    {e : FlowControl.Event st.content st.behind (owner st k).mp3glob} {g : Flow φ}
    (moved : channelNext st k (w.part (some k)) e = some g) :
    serverNext st w ⟨some k,e⟩ = some (put (history st) w (some k) g) :=
  congrArg (Option.map (put (history st) w (some k))) moved

theorem insideAny {tbf : Nat} {running running' : Bool} {phase phase' : Phase φ} {pc : Pc}
    (inside : Inside tbf running phase pc) (awake : phase ≠ .idle) (even : ∀ read rest, phase ≠ .refunding read rest) :
    Inside tbf running' phase' pc := by
  cases pc with
  | fetchLock address size => exact absurd inside.2.2.1 awake
  | fetchTest address size => exact absurd inside.2.2.1 awake
  | fetchWait address size => exact absurd inside.2.2.1 awake
  | fetchWoken address size => exact absurd inside.2.2.1 awake
  | returnLock address size =>
    obtain ⟨_,read,owes⟩ := inside
    exact absurd owes (even read size)
  | _ => exact inside

theorem callsMoved {s v : Process st} {k : Fin st.owners.length} {pc : Pc} (calls : Calls s)
    (pcs : v.timer.pc = update s.timer.pc (thrChannel k) pc)
    (mine : Inside (owner st k).tbf (v.snder k).running (v.phase k) pc)
    (theirs : ∀ j, j ≠ k → v.snder j = s.snder j ∧ v.phase j = s.phase j) : Calls v := by
  constructor
  · intro j
    by_cases here : j = k
    · subst here
      rw [pcs,updateSame]
      exact mine
    · have apart : thrChannel j ≠ thrChannel k := fun same => here (thrChannelInj same)
      rw [pcs,updateOther _ _ apart,(theirs j here).1,(theirs j here).2]
      exact calls.inside j
  · intro t other
    rw [pcs,updateOther _ _ (Ne.symm (other k))]
    exact calls.others t other

theorem callsStill {s v : Process st} {k : Fin st.owners.length} (calls : Calls s) (pcs : v.timer.pc = s.timer.pc)
    (awake : s.phase k ≠ .idle) (even : ∀ read rest, s.phase k ≠ .refunding read rest)
    (theirs : ∀ j, j ≠ k → v.snder j = s.snder j ∧ v.phase j = s.phase j) : Calls v := by
  constructor
  · intro j
    rw [pcs]
    by_cases here : j = k
    · subst here
      exact insideAny (calls.inside j) awake even
    · rw [(theirs j here).1,(theirs j here).2]
      exact calls.inside j
  · rw [pcs]
    exact calls.others

theorem relatedPut {s v : Process st} {w : Wire st} {k : Fin st.owners.length} {g : Flow φ} {b : Mytbf}
    (related : Related s w) (live : v.timer.mod.bucket (owner st k).tbf = some b)
    (flow : g = ⟨{ b with pos := (owner st k).tbf },v.snder k,v.phase k⟩) (depth : b.burst = tbfBurst)
    (ranged : Ranged (v.phase k)) (calls : Calls v)
    (theirs : ∀ j, j ≠ k → v.timer.mod.bucket (owner st j).tbf = s.timer.mod.bucket (owner st j).tbf ∧
      v.snder j = s.snder j ∧ v.phase j = s.phase j) (listed : v.listed = s.listed)
    (log : v.log = s.log ++ ((v.snder k).sent.drop (s.snder k).sent.length).map fun d => (some k,d)) :
    Related v (put (history st) w (some k) g) := by
  have other : ∀ j, j ≠ k → (put (history st) w (some k) g).part (some j) = w.part (some j) := fun j apart =>
    putOther w (i := some k) (j := some j) (by simpa using apart) g
  refine ⟨fun j => ?_,fun j => ?_,calls,?_,?_⟩
  · by_cases here : j = k
    · subst here
      exact ⟨b,live,(putPart w (some j) g).trans flow,depth⟩
    · obtain ⟨bucket,snder,phase⟩ := theirs j here
      obtain ⟨c,before,same,full⟩ := related.holds j
      exact ⟨c,bucket.trans before,by rw [other j here,same,snder,phase],full⟩
  · by_cases here : j = k
    · subst here
      exact ranged
    · rw [(theirs j here).2.2]
      exact related.ranged j
  · exact (putOther w (i := some k) (j := none) (by simp) g).trans (related.listed.trans listed.symm)
  · obtain ⟨c,_,same,_⟩ := related.holds k
    have grown : (put (history st) w (some k) g).log =
        w.log ++ ((history st (some k) g).drop (history st (some k) (w.part (some k))).length).map fun d => (some k,d) := rfl
    rw [grown,log,related.log,flow,same]
    rfl

theorem relatedSilent {s v : Process st} {w : Wire st} (related : Related s w)
    (buckets : ∀ k, v.timer.mod.bucket (owner st k).tbf = s.timer.mod.bucket (owner st k).tbf) (calls : Calls v)
    (snder : v.snder = s.snder) (phase : v.phase = s.phase) (listed : v.listed = s.listed) (log : v.log = s.log) :
    Related v w := by
  refine ⟨fun k => ?_,fun k => ?_,calls,related.listed.trans listed.symm,related.log.trans log.symm⟩
  · obtain ⟨b,live,flow,depth⟩ := related.holds k
    exact ⟨b,(buckets k).trans live,by rw [flow,snder,phase],depth⟩
  · rw [phase]
    exact related.ranged k

def Followed (s : Process st) (e : Event st) (v : Process st) (w : Wire st) : Prop :=
  ∃ x, exec (serverNext st) w (deed s e).toList = some x ∧ Related v x

theorem silent {s v : Process st} {e : Event st} {w : Wire st} (seen : deed s e = none) (related : Related v w) :
    Followed s e v w := ⟨w,deedSilent seen,related⟩

theorem loud {s v : Process st} {e : Event st} {w : Wire st} {k : Fin st.owners.length}
    {f : FlowControl.Event st.content st.behind (owner st k).mp3glob} {g : Flow φ} (seen : deed s e = some ⟨some k,f⟩)
    (moved : channelNext st k (w.part (some k)) f = some g)
    (related : Related v (put (history st) w (some k) g)) : Followed s e v w :=
  ⟨_,deedFollowed seen (channelMoved moved),related⟩

theorem noneSent (sent : List Bytes) (k : Fin st.owners.length) (log : List (Thread st × Bytes)) :
    log = log ++ (sent.drop sent.length).map fun d => (some k,d) := by
  rw [List.drop_length,List.map_nil,List.append_nil]

theorem callSilent {s : Process st} {w : Wire st} {k : Fin st.owners.length} {u : TimerThreads.State} {pc : Pc}
    (related : Related s w) (buckets : u.mod.bucket = s.timer.mod.bucket)
    (pcs : u.pc = update s.timer.pc (thrChannel k) pc)
    (mine : Inside (owner st k).tbf (s.snder k).running (s.phase k) pc) : Related { s with timer := u } w := by
  have calls : Calls ({ s with timer := u } : Process st) :=
    callsMoved related.calls pcs mine fun j _ => ⟨rfl,rfl⟩
  exact relatedSilent related (fun j => congrFun buckets _) calls rfl rfl rfl rfl

theorem callPut {s : Process st} {w : Wire st} {k : Fin st.owners.length} {u : TimerThreads.State} {pc : Pc}
    {c : Mytbf} {phase : Phase φ} (apart : Apart st) (related : Related s w)
    (buckets : u.mod.bucket = update s.timer.mod.bucket (owner st k).tbf (some c))
    (pcs : u.pc = update s.timer.pc (thrChannel k) pc) (depth : c.burst = tbfBurst) (ranged : Ranged phase)
    (mine : Inside (owner st k).tbf (s.snder k).running phase pc) :
    Related { s with timer := u, phase := Function.update s.phase k phase }
      (put (history st) w (some k) ⟨{ c with pos := (owner st k).tbf },s.snder k,phase⟩) := by
  have other : ∀ j, j ≠ k → s.snder j = s.snder j ∧ Function.update s.phase k phase j = s.phase j :=
    fun j there => ⟨rfl,Function.update_of_ne there _ _⟩
  have here : Function.update s.phase k phase k = phase := Function.update_self ..
  refine relatedPut related ?_ ?_ depth ?_ ?_ ?_ rfl ?_
  · rw [buckets,updateSame]
  · simp only [here]
  · simp only [here]
    exact ranged
  · refine callsMoved related.calls pcs ?_ other
    simp only [here]
    exact mine
  · intro j there
    have elsewhere : (owner st j).tbf ≠ (owner st k).tbf := fun same => there (apart j k same)
    refine ⟨?_,other j there⟩
    rw [buckets,updateOther _ _ elsewhere]
  · exact noneSent _ _ _

theorem stepFollowed {s : Process st} {w : Wire st} {t : Nat} {u : TimerThreads.State} (apart : Apart st)
    (related : Related s w) (made : Step s.timer t (s.timer.pc t) u) :
    Followed s (.timer (.step t)) (setPhase { s with timer := u } (stepped s t)) w := by
  by_cases channel : ∃ k : Fin st.owners.length, thrChannel k = t
  · obtain ⟨k,rfl⟩ := channel
    have inside := related.calls.inside k
    have mine := channelOfSelf k
    obtain ⟨b,live,flow,depth⟩ := related.holds k
    generalize at_ : s.timer.pc (thrChannel k) = pc at made inside
    -- Only the end of a fetch and of a return does something to the bucket.
    have still : (∀ address size, pc ≠ .fetchTest address size) → (∀ address size, pc ≠ .returnLock address size) →
        ∀ {after}, u.pc = update s.timer.pc (thrChannel k) after → u.mod.bucket = s.timer.mod.bucket →
        Inside (owner st k).tbf (s.snder k).running (s.phase k) after →
        Followed s (.timer (.step (thrChannel k))) (setPhase { s with timer := u } (stepped s (thrChannel k))) w := by
      intro noFetch noReturn after pcs buckets later
      have none_ : stepped s (thrChannel k) = none := by
        simp only [stepped,mine,at_,Option.bind_eq_bind,Option.bind_some]
      rw [none_]
      exact silent (by simp only [deed,none_]; rfl) (callSilent related buckets pcs later)
    cases made with
    | fetchLock address size free => exact still (by simp) (by simp) rfl rfl inside
    | fetchWoken address size free => exact still (by simp) (by simp) rfl rfl inside
    | fetchUnlock address => exact still (by simp) (by simp) rfl rfl True.intro
    | returnUnlock address => exact still (by simp) (by simp) rfl rfl True.intro
    | checkLock address free => exact still (by simp) (by simp) rfl rfl True.intro
    | checkUnlock address => exact still (by simp) (by simp) rfl rfl True.intro
    | fetchSleep address size c here empty =>
      have none_ : stepped s (thrChannel k) = none := by
        simp only [stepped,mine,at_,Option.bind_eq_bind,Option.bind_some,here,empty,Option.bind_none]
      rw [none_]
      exact silent (by simp only [deed,none_]; rfl) (callSilent related rfl rfl inside)
    | fetchTake address size n c d here got =>
      obtain ⟨rfl,rfl,idle,running⟩ := inside
      cases Option.some.inj (live.symm.trans here)
      have some_ : stepped s (thrChannel k) = some (k,.granted n) := by
        simp only [stepped,mine,at_,Option.bind_eq_bind,Option.bind_some,here,got]
      rw [some_]
      have moved : channelNext st k (w.part (some k)) .fetch =
          some ⟨{ d with pos := (owner st k).tbf },s.snder k,.granted n⟩ := by
        rw [flow]
        simp only [channelNext,FlowControl.next,idle,running,if_true,fetchPlaced got,Option.bind_eq_bind,Option.bind_some]
      refine loud (by simp only [deed,some_]; rfl) moved (callPut (s := s) apart related rfl rfl ?_ ?_ True.intro)
      · rw [fetchTaken got]
        exact depth
      · exact Server.fetchRange (by decide) got
    | returnAdd address size c d here added free =>
      obtain ⟨rfl,read,owes⟩ := inside
      cases Option.some.inj (live.symm.trans here)
      have some_ : stepped s (thrChannel k) = some (k,.sending read) := by
        simp only [stepped,mine,at_,Option.bind_eq_bind,Option.bind_some,owes]
      rw [some_]
      have moved : channelNext st k (w.part (some k)) .giveBack =
          some ⟨{ d with pos := (owner st k).tbf },s.snder k,.sending read⟩ := by
        rw [flow]
        simp only [channelNext,FlowControl.next,owes,returnPlaced added,Option.bind_eq_bind,Option.bind_some]
      refine loud (by simp only [deed,some_]; rfl) moved (callPut (s := s) apart related rfl rfl ?_ True.intro True.intro)
      rw [returnSum added]
      exact depth
    | initPlace => exact inside.elim
    | initUnlock => exact inside.elim
    | destroyClear => exact inside.elim
    | destroyUnlock => exact inside.elim
    | destroyFree => exact inside.elim
  · have outside := related.calls.others t fun k same => channel ⟨k,same⟩
    rw [outside] at made
    cases made

theorem handlerSilent {s : Process st} {w : Wire st} {u : TimerThreads.State} (related : Related s w)
    (buckets : ∀ k : Fin st.owners.length, u.mod.bucket (owner st k).tbf = s.timer.mod.bucket (owner st k).tbf)
    (pcs : u.pc = s.timer.pc) : Related { s with timer := u } w := by
  have calls : Calls ({ s with timer := u } : Process st) := by
    constructor
    · intro k
      simp only [pcs]
      exact related.calls.inside k
    · simp only [pcs]
      exact related.calls.others
  exact relatedSilent related buckets calls rfl rfl rfl rfl

/- alrm_handle runs on any thread; only its credits are seen, and those of a bucket that is
a channel's. -/
theorem handleFollowed {s : Process st} {w : Wire st} {t : Nat} {h : Handler} {u : TimerThreads.State} (apart : Apart st)
    (related : Related s w) (running : s.timer.handler t = some h) (made : HandlerStep s.timer t h u) :
    Followed s (.timer (.handle t)) { s with timer := u } w := by
  cases made with
  | credit i address c d free here added =>
    cases found : bucketOf st address with
    | none =>
      have seen : deed s (.timer (.handle t)) = none := by
        simp only [deed,running,found,Option.bind_eq_bind,Option.bind_none]
      refine silent seen (handlerSilent related (fun k => ?_) rfl)
      exact updateOther _ _ (bucketOfOther found k)
    | some k =>
      have there : (owner st k).tbf = address := by
        have held := List.find?_some found
        simpa only [decide_eq_true_eq] using held
      subst there
      obtain ⟨b,live,flow,depth⟩ := related.holds k
      cases Option.some.inj (live.symm.trans here)
      have seen : deed s (.timer (.handle t)) = some ⟨some k,.tick⟩ := by
        simp only [deed,running,found,Option.bind_eq_bind,Option.bind_some]
      have moved : channelNext st k (w.part (some k)) .tick =
          some ⟨{ d with pos := (owner st k).tbf },s.snder k,s.phase k⟩ := by
        rw [flow]
        simp only [channelNext,FlowControl.next,creditPlaced added,Option.bind_eq_bind,Option.bind_some]
      refine loud seen moved (relatedPut related (updateSame _ _ _) rfl ?_ (related.ranged k) ?_ ?_ rfl (noneSent _ _ _))
      · rw [creditSum added]
        exact depth
      · exact ⟨related.calls.inside,related.calls.others⟩
      · intro j other
        have elsewhere : (owner st j).tbf ≠ (owner st k).tbf := fun same => other (apart j k same)
        exact ⟨updateOther _ _ elsewhere,rfl,rfl⟩
  | lockJob free =>
    exact silent (by simp only [deed,running]) (handlerSilent related (fun _ => rfl) rfl)
  | skip i inside empty =>
    exact silent (by simp only [deed,running]) (handlerSilent related (fun _ => rfl) rfl)
  | slot i address inside registered =>
    exact silent (by simp only [deed,running]) (handlerSilent related (fun _ => rfl) rfl)
  | done i past =>
    exact silent (by simp only [deed,running]) (handlerSilent related (fun _ => rfl) rfl)
  | unlockBucket i address =>
    exact silent (by simp only [deed,running]) (handlerSilent related (fun _ => rfl) rfl)

theorem wakeFollowed {s : Process st} {w : Wire st} {t address : Nat} {size : Int} (related : Related s w)
    (asleep : s.timer.pc t = .fetchWait address size) :
    Followed s (.timer (.wake t)) { s with timer := TimerThreads.goto s.timer t (.fetchWoken address size) } w := by
  by_cases channel : ∃ k : Fin st.owners.length, thrChannel k = t
  · obtain ⟨k,rfl⟩ := channel
    have inside := related.calls.inside k
    rw [asleep] at inside
    exact silent rfl (callSilent related rfl rfl inside)
  · have outside := related.calls.others t fun k same => channel ⟨k,same⟩
    rw [outside] at asleep
    contradiction

theorem readRanged {os : Os φ} {chnid : UInt8} {n : Int} {iterations : Nat} {ch : ChannelContext φ} {read : Read φ}
    {refund : Option Int} (most : n ≤ readSize) (called : mlibReadchn os chnid n.toNat iterations ch = some (read,refund)) :
    Ranged (readPhase read refund) := by
  obtain ⟨found,looped,same⟩ := Option.bind_eq_some_iff.mp called
  obtain ⟨length,_⟩ := readLength (readSound looped)
  obtain ⟨rfl,rest⟩ := Prod.mk.inj (Option.some.inj same)
  subst rest
  by_cases part : (n.toNat : Int) - found.len > 0
  · rw [if_pos part]
    refine ⟨by omega,?_⟩
    have size : (0 : Int) ≤ readSize := Int.natCast_nonneg _
    omega
  · rw [if_neg part]
    exact True.intro

theorem readFollowed {s : Process st} {w : Wire st} {k : Fin st.owners.length}
    {server : FileServer st.content st.behind (owner st k).mp3glob} {iterations : Nat} {n : Int} {read : Read φ}
    {refund : Option Int} (related : Related s w) (granted : s.phase k = .granted n)
    (called : mlibReadchn server.os (owner st k).chnid n.toNat iterations (s.snder k).ch = some (read,refund)) :
    Followed s (.read k server iterations) { s with
      snder := Function.update s.snder k { s.snder k with ch := read.ch }
      phase := Function.update s.phase k (readPhase read refund) } w := by
  obtain ⟨b,live,flow,depth⟩ := related.holds k
  have most := related.ranged k
  rw [granted] at most
  have moved : channelNext st k (w.part (some k)) (.read server iterations) =
      some ⟨{ b with pos := (owner st k).tbf },{ s.snder k with ch := read.ch },readPhase read refund⟩ := by
    rw [flow]
    simp only [channelNext,FlowControl.next,granted,called,Option.bind_eq_bind,Option.bind_some]
    cases refund <;> rfl
  have other : ∀ j, j ≠ k → Function.update s.snder k { s.snder k with ch := read.ch } j = s.snder j ∧
      Function.update s.phase k (readPhase read refund) j = s.phase j :=
    fun j there => ⟨Function.update_of_ne there _ _,Function.update_of_ne there _ _⟩
  refine loud rfl moved (relatedPut related live ?_ depth ?_ ?_ (fun j there => ⟨rfl,other j there⟩) rfl ?_)
  · simp only [Function.update_self]
  · simp only [Function.update_self]
    exact readRanged most.2 called
  · exact callsStill related.calls rfl (by simp [granted]) (by simp [granted]) other
  · simp only [Function.update_self]
    exact noneSent _ _ _

theorem sendFollowed {s : Process st} {w : Wire st} {k : Fin st.owners.length} {read : Read φ} (ok : Bool)
    (related : Related s w) (holds : s.phase k = .sending read) :
    Followed s (.send k ok) { s with
      snder := Function.update s.snder k (afterRead st.order (owner st k).chnid (s.snder k) read ok)
      phase := Function.update s.phase k .idle
      log := s.log ++ ((afterRead st.order (owner st k).chnid (s.snder k) read ok).sent.drop
        (s.snder k).sent.length).map fun d => (some k,d) } w := by
  obtain ⟨b,live,flow,depth⟩ := related.holds k
  have moved : channelNext st k (w.part (some k)) (.send ok) =
      some ⟨{ b with pos := (owner st k).tbf },afterRead st.order (owner st k).chnid (s.snder k) read ok,.idle⟩ := by
    rw [flow]
    simp only [channelNext,FlowControl.next,holds]
  have other : ∀ j, j ≠ k →
      Function.update s.snder k (afterRead st.order (owner st k).chnid (s.snder k) read ok) j = s.snder j ∧
      Function.update s.phase k .idle j = s.phase j :=
    fun j there => ⟨Function.update_of_ne there _ _,Function.update_of_ne there _ _⟩
  refine loud rfl moved (relatedPut related live ?_ depth ?_ ?_ (fun j there => ⟨rfl,other j there⟩) rfl ?_)
  · simp only [Function.update_self]
  · simp only [Function.update_self]
    exact True.intro
  · exact callsStill related.calls rfl (by simp [holds]) (by simp [holds]) other
  · simp only [Function.update_self]

theorem listFollowed {s : Process st} {w : Wire st} {sent : List Bytes} (ok : Bool) (related : Related s w)
    (whole : sent = if ok then [listOctets st.order st.entries] else []) :
    Followed s (.list ok) { s with listed := s.listed ++ sent, log := s.log ++ sent.map fun d => (none,d) } w := by
  have moved : Server.next st none (w.part none) ok = some (s.listed ++ sent) := by
    rw [related.listed,whole]
    cases ok
    · exact congrArg some (List.append_nil _).symm
    · rfl
  have step : serverNext st w ⟨none,ok⟩ = some (put (history st) w none (s.listed ++ sent)) :=
    congrArg (Option.map (put (history st) w none)) moved
  refine ⟨_,deedFollowed rfl step,?_,related.ranged,⟨related.calls.inside,related.calls.others⟩,putPart w none _,?_⟩
  · intro k
    obtain ⟨b,live,flow,depth⟩ := related.holds k
    exact ⟨b,live,(putOther w (i := none) (j := some k) (by simp) _).trans flow,depth⟩
  · have grown : (put (history st) w none (s.listed ++ sent)).log =
        w.log ++ ((s.listed ++ sent).drop (history st none (w.part none)).length).map fun d => (none,d) := rfl
    rw [grown,related.listed,related.log]
    exact congrArg (fun more : List Bytes => s.log ++ more.map fun d => (none,d)) List.drop_left

theorem actFollowed {s v : Process st} {w : Wire st} {e : Event st} (apart : Apart st) (related : Related s w)
    (act : Act s e v) : Followed s e v w := by
  cases act with
  | fetch k u idle running move =>
    cases move
    exact silent rfl (callSilent related rfl rfl ⟨rfl,rfl,idle,running⟩)
  | check k n u granted move =>
    cases move
    exact silent rfl (callSilent related rfl rfl True.intro)
  | read k server iterations n read refund granted called => exact readFollowed related granted called
  | giveBack k read rest u owes move =>
    cases move
    exact silent rfl (callSilent related rfl rfl ⟨rfl,read,owes⟩)
  | send k ok read holds => exact sendFollowed ok related holds
  | list ok sent whole => exact listFollowed ok related whole
  | wake t u move =>
    cases move with
    | wake _ address size asleep quiet => exact wakeFollowed related asleep
  | step t u move =>
    cases move with
    | step _ _ quiet made => exact stepFollowed apart related made
  | alarm t u move =>
    cases move
    exact silent rfl (handlerSilent related (fun _ => rfl) rfl)
  | handle t u move =>
    cases move with
    | handle _ h _ running made => exact handleFollowed apart related running made

theorem equippedApart {m n : Module} (equipped : Equipped m n st.owners) : Apart st := by
  intro j k same
  have rising := List.pairwise_iff_get.mp equipped.rising
  rcases lt_trichotomy j k with below | here | above
  · exact absurd same (Nat.ne_of_lt (rising j k below))
  · exact here
  · exact absurd same.symm (Nat.ne_of_lt (rising k j above))

theorem equippedStart {m n : Module} (equipped : Equipped m n st.owners) : Related (start st n) (Server.start st) := by
  refine ⟨fun k => ?_,fun _ => True.intro,⟨fun _ => True.intro,fun _ _ => rfl⟩,rfl,rfl⟩
  obtain ⟨_,_,pos,empty⟩ := equipped.own (owner st k) (List.get_mem _ _)
  exact ⟨_,empty,rfl,rfl⟩

theorem relatedRun {m n : Module} (equipped : Equipped m n st.owners) {es : List (Event st)} {s : Process st}
    (run : exec next (start st n) es = some s) :
    ∃ w, exec (serverNext st) (Server.start st) (deeds next deed (start st n) es) = some w ∧ Related s w :=
  refines (fun _ _ _ _ related step => actFollowed (equippedApart equipped) related (actSound step))
    (equippedStart equipped) run

theorem returnAdmitted {s : Process st} {w : Wire st} {k : Fin st.owners.length} {read : Read φ} {rest : Int}
    (related : Related s w) (owes : s.phase k = .refunding read rest) (idle : free s.timer (thrChannel k) = true) :
    ∃ v, next s (.giveBack k) = some v := by
  obtain ⟨b,live,_,depth⟩ := related.holds k
  have ranged := related.ranged k
  rw [owes] at ranged
  obtain ⟨least,most⟩ := ranged
  have deep : (readSize : Int) ≤ b.burst := by
    rw [depth]
    decide
  have guard : free s.timer (thrChannel k) = true ∧ 0 ≤ rest ∧ rest ≤ b.burst := ⟨idle,least,by omega⟩
  have admitted : TimerThreads.next s.timer (.giveBack (thrChannel k) (owner st k).tbf rest) =
      some (TimerThreads.goto s.timer (thrChannel k) (.returnLock (owner st k).tbf rest)) := by
    simp only [TimerThreads.next,live,Option.bind_eq_bind,Option.bind_some,if_pos guard]
  refine ⟨{ s with timer := TimerThreads.goto s.timer (thrChannel k) (.returnLock (owner st k).tbf rest) },?_⟩
  simp only [next,owes,call,admitted,Option.map_some]

theorem wireRead {es : List (Sigma (Label st))} {w : Wire st} (run : exec (serverNext st) (Server.start st) es = some w)
    {k : Fin st.owners.length} {i : Nat} {d : Bytes} (there : (ofMachine (some k) w.log)[i]? = some d) :
    readSeq st.order d = UInt32.ofNat i ∧ readChnid d = (owner st k).chnid ∧ d.length ≤ msgChannelMax := by
  have fits := Server.wireFits run there
  obtain ⟨data,rfl,_⟩ := Server.wireNumbered run there
  obtain ⟨seq,id,_⟩ := readMsgChannel st.order (UInt32.ofNat i) (owner st k).chnid data
  exact ⟨seq,id,fits⟩

/- The server from main on, lock by lock and with SIGALRM on any thread, is the server of
Server whose steps are whole calls: the grants, the refunds and the credits in the order of
their locked sections, and the same datagrams on the wire. A refund is never refused. Each
number on the wire is that of one valid directory, whose files go out in order. -/
theorem serverLocks {w : World φ} {opts : List (Char × String)} {u : Running φ} {dirs : List (MediaDir φ)}
    (ran : main w opts = .ok u) (globbed : w.globbed u.conf.mediaDir = some dirs)
    (suffice_ : IdsSuffice (UInt8.ofNat minchnid) dirs) {o : ByteOrder} {content : Path → Bytes} {behind : φ → Bytes}
    (media : ∀ d ∈ dirs, Media content behind d) {es : List (Event (station o content behind u))}
    {s : Process (station o content behind u)}
    (run : exec next (start (station o content behind u) u.scanned.lib.mod) es = some s) :
    (∃ v, exec (serverNext (station o content behind u)) (Server.start (station o content behind u))
        (deeds next deed (start (station o content behind u) u.scanned.lib.mod) es) = some v ∧
      (∀ k, ∃ b, Holds s v k b) ∧ v.part none = s.listed ∧ v.log = s.log) ∧
    (∀ k read rest, s.phase k = .refunding read rest → free s.timer (thrChannel k) = true →
      ∃ t, next s (.giveBack k) = some t) ∧
    (∀ k : Fin u.scanned.owners.length,
      u.scanned.lib.channel (u.scanned.owners.get k).chnid.toNat = some (u.scanned.owners.get k) ∧
      (∀ i d, (ofMachine (some k) s.log)[i]? = some d → readSeq o d = UInt32.ofNat i ∧
        readChnid d = (u.scanned.owners.get k).chnid ∧ d.length ≤ msgChannelMax) ∧
      ∃ dir, (dirs.filter valid)[k.val]? = some dir ∧ (u.scanned.owners.get k).mp3glob = dir.mp3 ∧
        ∀ n, ∃ laps, (payloads ((ofMachine (some k) s.log).take n)).flatten <+:
          (List.replicate laps (blocks content dir.mp3).flatten).flatten) ∧
    ∀ d ∈ ofMachine none s.log, d = encodeList u.scanned.entries := by
  have source := mainSound ran
  have staffed := staffedMain source globbed suffice_
  have scanned := source.scan
  rw [globbed] at scanned
  obtain ⟨v,followed,related⟩ := @relatedRun φ (station o content behind u) _ _ (scannedEquipped scanned) _ _ run
  refine ⟨⟨v,followed,related.holds,related.listed,related.log⟩,?_,?_,?_⟩
  · intro k read rest owes idle
    exact returnAdmitted related owes idle
  · intro k
    refine ⟨staffed.channel _ (List.get_mem _ k),fun i d there => ?_,?_⟩
    · rw [← related.log] at there
      exact wireRead followed there
    · obtain ⟨dir,there,owns⟩ := ownerDir staffed.owned k
      refine ⟨dir,there,owns.files,fun n => ?_⟩
      have onWire := Server.wirePrefix (staffedReady staffed media o) followed k n
      rw [← owns.files,← related.log]
      exact onWire
  · intro d member
    rw [← related.log] at member
    rw [Server.listSent followed d member,listOctetsEncoded]
    rfl

/- The one channel of TuneIn. Its thread waits for tokens, the list goes out, and the main
thread gets the SIGALRM that pays for the first datagram. -/
def disc : Fin discStation.owners.length := ⟨0,Nat.zero_lt_one⟩

def waitingThread : List (Event discStation) :=
  [.fetch disc,.timer (.step 2),.timer (.step 2),.list true,.timer (.alarm 0),.timer (.handle 0),.timer (.handle 0),
    .timer (.handle 0),.timer (.handle 0),.timer (.wake 2),.timer (.step 2),.timer (.step 2),.timer (.step 2),
    .check disc,.timer (.step 2),.timer (.step 2),.read disc Server.sampleServer 1,.giveBack disc,.timer (.step 2),
    .timer (.step 2),.send disc true]

def waitingDeeds : List (Sigma (Label discStation)) :=
  ⟨none,true⟩ :: [FlowControl.Event.tick,.fetch,.read Server.sampleServer 1,.giveBack,.send true].map discStep

theorem waitingSent : ∃ s v, exec next (start discStation serving.scanned.lib.mod) waitingThread = some s ∧
    ofMachine (some disc) s.log = [msgChannel .little 0 1 [10,11,12]] ∧
    exec (serverNext discStation) (Server.start discStation) waitingDeeds = some v ∧ v.log = s.log ∧
    ∀ d ∈ ofMachine none s.log, d = encodeList serving.scanned.entries := by
  have sent : (exec next (start discStation serving.scanned.lib.mod) waitingThread).map
      (fun s => ofMachine (some disc) s.log) = some [msgChannel .little 0 1 [10,11,12]] := by decide +kernel
  have done : deeds next deed (start discStation serving.scanned.lib.mod) waitingThread = waitingDeeds := rfl
  obtain ⟨s,run,sent⟩ := Option.map_eq_some_iff.mp sent
  obtain ⟨⟨v,followed,_,_,same⟩,_,_,listed⟩ :=
    @serverLocks _ sampleWorld [] serving [plainDir,discDir] rfl rfl ⟨by decide,by decide⟩ .little sampleContent
      sampleContent sampleMedia waitingThread s run
  have told : exec (serverNext discStation) (Server.start discStation) waitingDeeds = some v := done ▸ followed
  exact ⟨s,v,run,sent,told,same,listed⟩

end IPv4Media.ServerLocks
