import IPv4Media.ReadPasses
import IPv4Media.Socket
import IPv4Media.TokenBucket

/-! One whole mlib_readchn (medialib.c) with its bucket: the fetch, the passes over the
files, and the refund, with ticks of the bucket between any two of them. The log lines
between these read only; mytbf_checktoken gives its value to one of them. -/
namespace IPv4Media.ReadCharge
open Octets Socket Playlist ReadPasses TokenBucket Execution

variable {φ : Type}

inductive Phase where
  | fetching
  | looping (tbfsize : Int) (k : Nat)
  | refunding (tbfsize len : Int) (buf : Bytes)
  | returned (tbfsize len : Int) (buf : Bytes)
  deriving DecidableEq, Repr

structure Call (φ : Type) where
  bucket : Mytbf
  ch : ChannelContext φ
  phase : Phase

inductive Event where | tick | fetch | pass | giveBack deriving DecidableEq, Repr

-- mytbf_fetchtoken takes the size_t as an int.
def toInt (size : Nat) : Int := Int.bmod size (2^32)

def next (os : Os φ) (chnid : UInt8) (size : Nat) (s : Call φ) : Event → Option (Call φ)
  | .tick => (credit s.bucket).map fun bucket => { s with bucket }
  | .fetch => match s.phase with
    | .fetching => (fetchtoken s.bucket (toInt size)).map fun (tbfsize,bucket) =>
      { s with bucket, phase := .looping tbfsize 0 }
    | _ => none
  | .pass => match s.phase with
    | .looping tbfsize k =>
      let pass := readPass os chnid (sizeT tbfsize) k s.ch
      some { s with
        ch := pass.ch
        phase := match pass.done with
          | none => .looping tbfsize (k+1)
          | some (len,buf) => if tbfsize - len > 0 then .refunding tbfsize len buf else .returned tbfsize len buf }
    | _ => none
  | .giveBack => match s.phase with
    | .refunding tbfsize len buf => (returntoken s.bucket (tbfsize - len)).map fun bucket =>
      { s with bucket, phase := .returned tbfsize len buf }
    | _ => none

def isTick (e : Event) : Bool := e == .tick
def ticks (events : List Event) : Nat := events.countP isTick

def creditTimes : Nat → Mytbf → Option Mytbf
  | 0, b => some b
  | n+1, b => (creditTimes n b).bind credit

/- The last lines of mlib_readchn. -/
def refund (b : Mytbf) (rest : Int) : Option Mytbf := if rest > 0 then returntoken b rest else some b

def skipped (os : Os φ) (chnid : UInt8) : Nat → ChannelContext φ → ChannelContext φ
  | 0, ch => ch
  | k+1, ch => (openNext os chnid k (skipped os chnid k ch)).ch

def Fetched (size : Nat) (start : Mytbf) (i j : Nat) (tbfsize : Int) (b : Mytbf) : Prop :=
  ∃ before after, creditTimes i start = some before ∧ fetchtoken before (toInt size) = some (tbfsize,after) ∧
    creditTimes j after = some b

def AllFailed (os : Os φ) (chnid : UInt8) (tbfsize : Int) (ch : ChannelContext φ) (k : Nat) : Prop :=
  ∀ e < k, pread os e (skipped os chnid e ch) (sizeT tbfsize) = none

def Finished (os : Os φ) (chnid : UInt8) (start : ChannelContext φ) (tbfsize len : Int) (buf : Bytes)
    (ch : ChannelContext φ) : Prop :=
  ∃ k, AllFailed os chnid tbfsize start k ∧
    (readPass os chnid (sizeT tbfsize) k (skipped os chnid k start)).done = some (len,buf) ∧
    (readPass os chnid (sizeT tbfsize) k (skipped os chnid k start)).ch = ch

/- How far the call has come, and what it has done to bucket and channel. The number is
that of the ticks so far. -/
inductive Progress (os : Os φ) (chnid : UInt8) (size : Nat) (bucket : Mytbf) (start : ChannelContext φ) :
    Nat → Call φ → Prop where
  | fetching {i b} (ticked : creditTimes i bucket = some b) :
      Progress os chnid size bucket start i ⟨b,start,.fetching⟩
  | looping {i j b tbfsize k} (fetched : Fetched size bucket i j tbfsize b)
      (failed : AllFailed os chnid tbfsize start k) :
      Progress os chnid size bucket start (i+j) ⟨b,skipped os chnid k start,.looping tbfsize k⟩
  | refunding {i j b tbfsize len buf ch} (fetched : Fetched size bucket i j tbfsize b)
      (finished : Finished os chnid start tbfsize len buf ch) (rest : tbfsize - len > 0) :
      Progress os chnid size bucket start (i+j) ⟨b,ch,.refunding tbfsize len buf⟩
  | returned {i j l b c d tbfsize len buf ch} (fetched : Fetched size bucket i j tbfsize b)
      (finished : Finished os chnid start tbfsize len buf ch) (refunded : refund b (tbfsize - len) = some c)
      (ticked : creditTimes l c = some d) :
      Progress os chnid size bucket start (i+j+l) ⟨d,ch,.returned tbfsize len buf⟩

theorem passFailed {os : Os φ} {chnid : UInt8} {n k : Nat} {ch : ChannelContext φ}
    (goes : (readPass os chnid n k ch).done = none) :
    pread os k ch n = none ∧ (readPass os chnid n k ch).ch = (openNext os chnid k ch).ch := by
  unfold readPass at goes ⊢
  split at goes <;> simp_all

theorem creditSnoc {n : Nat} {b c d : Mytbf} (before : creditTimes n b = some c) (added : credit c = some d) :
    creditTimes (n+1) b = some d := by
  rw [creditTimes,before]
  exact added

theorem fetchedTick {size i j : Nat} {start b c : Mytbf} {tbfsize : Int} (fetched : Fetched size start i j tbfsize b)
    (added : credit b = some c) : Fetched size start i (j+1) tbfsize c := by
  obtain ⟨before,after,ticked,got,later⟩ := fetched
  exact ⟨before,after,ticked,got,creditSnoc later added⟩

variable {os : Os φ} {chnid : UInt8} {size m : Nat} {bucket c : Mytbf} {start : ChannelContext φ} {s t : Call φ}

theorem progressTick (progress : Progress os chnid size bucket start m s) (added : credit s.bucket = some c) :
    Progress os chnid size bucket start (m+1) { s with bucket := c } := by
  cases progress with
  | fetching ticked => exact .fetching (creditSnoc ticked added)
  | @looping i j b tbfsize k fetched failed => exact .looping (i := i) (j := j+1) (fetchedTick fetched added) failed
  | @refunding i j b tbfsize len buf ch fetched finished rest =>
    exact .refunding (i := i) (j := j+1) (fetchedTick fetched added) finished rest
  | @returned i j l b c d tbfsize len buf ch fetched finished refunded ticked =>
    exact .returned (i := i) (j := j) (l := l+1) fetched finished refunded (creditSnoc ticked added)

theorem progressPass {i j k : Nat} {b : Mytbf} {tbfsize : Int} (fetched : Fetched size bucket i j tbfsize b)
    (failed : AllFailed os chnid tbfsize start k)
    (step : next os chnid size ⟨b,skipped os chnid k start,.looping tbfsize k⟩ .pass = some t) :
    Progress os chnid size bucket start (i+j) t := by
  cases Option.some.inj step
  cases done : (readPass os chnid (sizeT tbfsize) k (skipped os chnid k start)).done with
  | none =>
    obtain ⟨error,moved⟩ := passFailed done
    rw [moved]
    refine .looping (k := k+1) fetched fun e below => ?_
    by_cases last : e = k
    · rw [last]
      exact error
    · exact failed e (by omega)
  | some pair =>
    obtain ⟨len,buf⟩ := pair
    have finished : Finished os chnid start tbfsize len buf
      (readPass os chnid (sizeT tbfsize) k (skipped os chnid k start)).ch := ⟨k,failed,done,rfl⟩
    simp only
    by_cases rest : tbfsize - len > 0
    · rw [if_pos rest]
      exact .refunding fetched finished rest
    · rw [if_neg rest]
      exact .returned (l := 0) fetched finished (if_neg rest) rfl

theorem progressStep {e : Event} (progress : Progress os chnid size bucket start m s)
    (step : next os chnid size s e = some t) (call : e ≠ .tick) : Progress os chnid size bucket start m t := by
  cases progress with
  | @fetching _ b ticked =>
    cases e with
    | fetch =>
      obtain ⟨⟨tbfsize,after⟩,got,rfl⟩ := Option.map_eq_some_iff.mp step
      exact .looping (i := m) (j := 0) (k := 0) ⟨b,after,ticked,got,rfl⟩
        (fun e below => absurd below (Nat.not_lt_zero e))
    | tick => contradiction
    | _ => cases step
  | looping fetched failed =>
    cases e with
    | pass => exact progressPass fetched failed step
    | tick => contradiction
    | _ => cases step
  | refunding fetched finished rest =>
    cases e with
    | giveBack =>
      obtain ⟨c,added,rfl⟩ := Option.map_eq_some_iff.mp step
      exact .returned (l := 0) fetched finished ((if_pos rest).trans added) rfl
    | tick => contradiction
    | _ => cases step
  | returned fetched finished refunded ticked =>
    cases e with
    | tick => contradiction
    | _ => cases step

theorem progressRun {events : List Event} (run : exec (next os chnid size) ⟨bucket,start,.fetching⟩ events = some t) :
    Progress os chnid size bucket start (ticks events) t := by
  refine history (I := fun events t => Progress os chnid size bucket start (ticks events) t) (.fetching rfl) ?_ run
  intro events s e t progress step
  have count : ticks (events ++ [e]) = ticks events + if isTick e then 1 else 0 := by
    simp [ticks,List.countP_append,List.countP_cons]
  rw [count]
  by_cases tick : e = .tick
  · subst tick
    obtain ⟨c,added,rfl⟩ := Option.map_eq_some_iff.mp step
    exact progressTick progress added
  · rw [if_neg (by simpa [isTick] using tick)]
    exact progressStep progress step tick

/- The len octets of a call and where they stood: in the file that was open, at the old
offset, or at the front of the file that open_next opened behind the last failed pass. -/
structure Delivered (os : Os φ) (chnid : UInt8) (start : ChannelContext φ) (tbfsize : Int) (k : Nat) (fd : φ)
    (position : Nat) (buf : Bytes) : Prop where
  bad : AllFailed os chnid tbfsize start k
  held : (skipped os chnid k start).fd = some fd
  place : position = if k = 0 then start.offset else 0
  opened : 0 < k → ∃ i, os.openFile (k-1) i (path (skipped os chnid k start)) = some fd
  stored : os.preadFile k fd (sizeT tbfsize) position = some buf

def Stores (behind : φ → Bytes) (os : Os φ) : Prop :=
  ∀ k fd n offset bytes, os.preadFile k fd n offset = some bytes → bytes <+: (behind fd).drop offset

theorem openNextHeld {k : Nat} {ch : ChannelContext φ} {fd : φ} (held : (openNext os chnid k ch).ch.fd = some fd) :
    (openNext os chnid k ch).ch.offset = 0 ∧ ∃ i, os.openFile k i (path (openNext os chnid k ch).ch) = some fd := by
  cases openNextCases os chnid k ch with
  | missed silent ret pos none_ offset =>
    rw [none_] at held
    contradiction
  | found d opened within silent answer ret pos some_ offset =>
    cases Option.some.inj (some_.symm.trans held)
    refine ⟨offset,d,?_⟩
    rw [← fileHere,(openNextSame os chnid k ch).mp3glob,pos]
    exact answer

theorem finishedDelivers {tbfsize len : Int} {buf : Bytes} {ch : ChannelContext φ}
    (finished : Finished os chnid start tbfsize len buf ch) :
    len = buf.length ∧ buf.length ≤ sizeT tbfsize ∧
    (0 < len → ∃ k fd position, Delivered os chnid start tbfsize k fd position buf ∧
      ch.offset = position + buf.length) := by
  obtain ⟨k,bad,done,rfl⟩ := finished
  unfold readPass at done ⊢
  cases got : pread os k (skipped os chnid k start) (sizeT tbfsize) with
  | none => simp [got] at done
  | some bytes =>
    obtain ⟨fd,held,stored⟩ := Option.bind_eq_some_iff.mp got
    have short := os.short _ _ _ _ _ stored
    cases bytes with
    | nil =>
      simp only [got,Option.some.injEq,Prod.mk.injEq] at done
      obtain ⟨rfl,rfl⟩ := done
      exact ⟨rfl,Nat.zero_le _,fun positive => absurd positive (Int.lt_irrefl 0)⟩
    | cons b bytes =>
      simp only [got,Option.some.injEq,Prod.mk.injEq] at done
      obtain ⟨rfl,rfl⟩ := done
      refine ⟨rfl,short,fun _ => ⟨k,fd,(skipped os chnid k start).offset,⟨bad,held,?_,?_,stored⟩,rfl⟩⟩
      · cases k with
        | zero => rfl
        | succ k => exact (openNextHeld held).1
      · intro some_
        obtain ⟨k,rfl⟩ := Nat.exists_eq_succ_of_ne_zero (Nat.ne_of_gt some_)
        exact (openNextHeld held).2

theorem finishedLoop {tbfsize len : Int} {buf : Bytes} {ch : ChannelContext φ}
    (finished : Finished os chnid start tbfsize len buf ch) : ∃ iterations read,
      readLoop os chnid (sizeT tbfsize) iterations 0 start = some read ∧ read.len = len ∧ read.buf = buf ∧
      read.ch = ch := by
  obtain ⟨k,bad,done,rfl⟩ := finished
  suffices onward : ∀ d e, e + d = k → ∃ iterations read,
      readLoop os chnid (sizeT tbfsize) iterations e (skipped os chnid e start) = some read ∧ read.len = len ∧
      read.buf = buf ∧ read.ch = (readPass os chnid (sizeT tbfsize) k (skipped os chnid k start)).ch from
    onward k 0 (Nat.zero_add k)
  intro d
  induction d with
  | zero =>
    intro e there
    obtain rfl : e = k := there
    exact ⟨1,_,by rw [readLoopPass,done],rfl,rfl,rfl⟩
  | succ d ih =>
    intro e there
    obtain ⟨n,read,looped,length,octets,left⟩ := ih (e+1) (by omega)
    have goes : readPass os chnid (sizeT tbfsize) e (skipped os chnid e start) =
        ⟨skipped os chnid (e+1) start,
          (skipped os chnid e start).pos :: (openNext os chnid e (skipped os chnid e start)).subscripts,none⟩ := by
      rw [readPass,bad e (by omega)]
      rfl
    refine ⟨n+1,{ read with subscripts := (skipped os chnid e start).pos ::
      (openNext os chnid e (skipped os chnid e start)).subscripts ++ read.subscripts },?_,length,octets,left⟩
    rw [readLoopPass,goes]
    simp only [looped,Option.map_some]

theorem creditTimesSpec {n : Nat} {b d : Mytbf} (balanced : Balanced b) (ticked : creditTimes n b = some d) :
    Balanced d ∧ d.cps = b.cps ∧ d.burst = b.burst ∧ d.token ≤ b.token + n * b.cps := by
  induction n generalizing d with
  | zero => cases Option.some.inj ticked; exact ⟨balanced,rfl,rfl,by simp⟩
  | succ n ih =>
    obtain ⟨before,earlier,last⟩ := Option.bind_eq_some_iff.mp ticked
    obtain ⟨even,rate,depth,most⟩ := ih earlier
    obtain ⟨e,added,kept,rate',depth',_,more,_⟩ := creditSpec even
    cases Option.some.inj (added.symm.trans last)
    refine ⟨kept,rate'.trans rate,depth'.trans depth,?_⟩
    rw [Nat.cast_succ,Int.add_mul,Int.one_mul]
    rw [rate] at more
    omega

theorem refundSpec {b d : Mytbf} {rest : Int} (balanced : Balanced b) (least : 0 ≤ rest) (small : rest ≤ b.burst)
    (refunded : refund b rest = some d) :
    Balanced d ∧ d.cps = b.cps ∧ d.burst = b.burst ∧ d.token = min b.burst (b.token + rest) := by
  have high := balanced.high
  unfold refund at refunded
  split at refunded
  · obtain ⟨e,added,kept,rate,depth,_⟩ := returnSpec balanced least small
    cases Option.some.inj (added.symm.trans refunded)
    exact ⟨kept,rate,depth,congrArg Mytbf.token (returnSum added)⟩
  · cases Option.some.inj refunded
    exact ⟨balanced,rfl,rfl,by omega⟩

theorem toIntSmall {n : Nat} (small : n ≤ intMax) : toInt n = n := by
  have bound : intMax < 2^31 := by decide
  exact Int.bmod_eq_of_le (by omega) (by omega)

theorem fetchedSpec {i j : Nat} {b : Mytbf} {granted : Int} (balanced : Balanced bucket) (small : size ≤ intMax)
    (fetched : Fetched size bucket i j granted b) :
    0 ≤ granted ∧ granted ≤ size ∧ granted ≤ b.burst ∧ Balanced b ∧ b.cps = bucket.cps ∧ b.burst = bucket.burst ∧
    b.token ≤ bucket.token + (i + j : Nat) * bucket.cps - granted ∧
    (i + j = 0 → b.token = bucket.token - granted) := by
  obtain ⟨before,after,early,got,later⟩ := fetched
  obtain ⟨even,rate,depth,most⟩ := creditTimesSpec balanced early
  rw [toIntSmall small] at got
  obtain ⟨filled,grant,spent,kept,rate',depth',_⟩ := fetchGrant even (Int.natCast_nonneg size) got
  have cap := even.high
  obtain ⟨last,rate'',depth'',more⟩ := creditTimesSpec kept later
  rw [rate',rate] at more
  refine ⟨by omega,by omega,by omega,last,rate''.trans (rate'.trans rate),depth''.trans (depth'.trans depth),?_,?_⟩
  · rw [Nat.cast_add,Int.add_mul]
    omega
  · intro none_
    obtain ⟨rfl,rfl⟩ := Nat.add_eq_zero_iff.mp none_
    cases Option.some.inj early
    cases Option.some.inj later
    exact spent

theorem callBalance {i j l : Nat} {b c d : Mytbf} {granted len : Int} (balanced : Balanced bucket)
    (small : size ≤ intMax) (fetched : Fetched size bucket i j granted b) (least : 0 ≤ len) (most : len ≤ granted)
    (refunded : refund b (granted - len) = some c) (ticked : creditTimes l c = some d) :
    d.token ≤ bucket.burst ∧ d.token ≤ bucket.token + (i + j + l : Nat) * bucket.cps - len ∧
    (i + j + l = 0 → d.token = bucket.token - len) := by
  obtain ⟨_,_,below,even,rate,depth,spent,exact_⟩ := fetchedSpec balanced small fetched
  obtain ⟨kept,rate',depth',paid⟩ := refundSpec even (by omega) (by omega) refunded
  obtain ⟨last,_,depth'',more⟩ := creditTimesSpec kept ticked
  have high := last.high
  rw [rate',rate] at more
  refine ⟨by omega,?_,?_⟩
  · rw [Nat.cast_add (i+j),Int.add_mul]
    omega
  · intro none_
    obtain ⟨early,rfl⟩ := Nat.add_eq_zero_iff.mp none_
    cases Option.some.inj ticked
    have full := balanced.high
    have rest := exact_ early
    omega

theorem sizeTGranted {size g : Nat} (small : size ≤ intMax) (within : (g : Int) ≤ size) : sizeT g = g := by
  have bound : intMax < 2^64 := by decide
  exact sizeTNat (by omega)

theorem returnedCall {events : List Event} {granted len : Int} {buf : Bytes}
    (run : exec (next os chnid size) ⟨bucket,start,.fetching⟩ events = some t)
    (returned : t.phase = .returned granted len buf) : Finished os chnid start granted len buf t.ch ∧
      ∃ i j l b c, i + j + l = ticks events ∧ Fetched size bucket i j granted b ∧
        refund b (granted - len) = some c ∧ creditTimes l c = some t.bucket := by
  have progress := progressRun run
  generalize ticks events = m at progress ⊢
  cases progress with
  | fetching ticked => cases returned
  | looping fetched failed => cases returned
  | refunding fetched finished rest => cases returned
  | @returned i j l b c d granted len buf ch fetched finished refunded ticked =>
    cases returned
    exact ⟨finished,i,j,l,b,c,rfl,fetched,refunded,ticked⟩

/- Ticks change what the bucket holds, not what the call reads: that is mlib_readchn at the granted size. -/
theorem callReads {events : List Event} {granted len : Int} {buf : Bytes} (balanced : Balanced bucket)
    (small : size ≤ intMax) (run : exec (next os chnid size) ⟨bucket,start,.fetching⟩ events = some t)
    (returned : t.phase = .returned granted len buf) : ∃ (g iterations : Nat) (read : Read φ), granted = g ∧
      mlibReadchn os chnid g iterations start = some (read,if granted - len > 0 then some (granted - len) else none) ∧
      read.len = len ∧ read.buf = buf ∧ read.ch = t.ch := by
  obtain ⟨finished,i,j,l,b,c,_,fetched,_⟩ := returnedCall run returned
  obtain ⟨least,within,_⟩ := fetchedSpec balanced small fetched
  obtain ⟨g,rfl⟩ := Int.eq_ofNat_of_zero_le least
  obtain ⟨iterations,read,looped,length,octets,left⟩ := finishedLoop finished
  rw [sizeTGranted small within] at looped
  refine ⟨g,iterations,read,rfl,?_,length,octets,left⟩
  rw [mlibReadchn,looped,← length]
  rfl

/- granted is what the fetch gave, len and buf are what the call returns. -/
theorem readCharges {events : List Event} {granted len : Int} {buf : Bytes} (balanced : Balanced bucket)
    (small : size ≤ intMax) (run : exec (next os chnid size) ⟨bucket,start,.fetching⟩ events = some t)
    (returned : t.phase = .returned granted len buf) :
    (0 ≤ len ∧ len ≤ granted ∧ granted ≤ size ∧ len = buf.length) ∧
    (0 < len → ∃ k fd position, Delivered os chnid start granted k fd position buf ∧
      (∀ behind, Stores behind os → buf = ((behind fd).drop position).take buf.length) ∧
      t.ch.offset = position + buf.length) ∧
    (∃ i j l b c, i + j + l = ticks events ∧ Fetched size bucket i j granted b ∧
      refund b (granted - len) = some c ∧ creditTimes l c = some t.bucket) ∧
    t.bucket.token ≤ min bucket.burst (bucket.token + ticks events * bucket.cps - len) ∧
    (ticks events = 0 → t.bucket.token = bucket.token - len) := by
  obtain ⟨finished,i,j,l,b,c,count,fetched,refunded,ticked⟩ := returnedCall run returned
  obtain ⟨least,within,_⟩ := fetchedSpec balanced small fetched
  obtain ⟨g,rfl⟩ := Int.eq_ofNat_of_zero_le least
  obtain ⟨length,short,delivers⟩ := finishedDelivers finished
  rw [sizeTGranted small within] at short
  have most : len ≤ g := by omega
  obtain ⟨cap,spent,exact_⟩ := callBalance balanced small fetched (by omega) most refunded ticked
  rw [← count]
  refine ⟨⟨by omega,most,within,length⟩,fun positive => ?_,⟨i,j,l,b,c,rfl,fetched,refunded,ticked⟩,
    le_min cap spent,exact_⟩
  obtain ⟨k,fd,position,delivered,offset⟩ := delivers positive
  refine ⟨k,fd,position,delivered,fun behind stores => ?_,offset⟩
  exact List.prefix_iff_eq_take.mp (stores _ _ _ _ _ delivered.stored)

/- The open file cannot be read, the next one has three octets, and a tick comes between. -/
def patchyList : ChannelContext Nat := ⟨4,[],[[120],[121]],0,some 1,9,0,by decide⟩

def patchy : Os Nat :=
  ⟨fun _ _ p => some (p.getD 0 0).toNat,
   fun _ fd n offset => if fd = 121 then some (([7,8,9].drop offset).take n) else none,by
    intro _ fd n offset bytes got
    split at got <;> try contradiction
    cases Option.some.inj got
    exact List.length_take_le _ _⟩

def patchyCall : List Event := [.fetch,.pass,.tick,.pass,.giveBack]

theorem patchyCharged : ∃ t, exec (next patchy 4 4) ⟨⟨3,10,5,0⟩,patchyList,.fetching⟩ patchyCall = some t ∧
    t.phase = .returned 4 3 [7,8,9] ∧ t.bucket.token ≤ 5 ∧
    ∃ k fd position, Delivered patchy 4 patchyList 4 k fd position [7,8,9] ∧ t.ch.offset = position + 3 := by
  have ran : (exec (next patchy 4 4) ⟨⟨3,10,5,0⟩,patchyList,.fetching⟩ patchyCall).map Call.phase =
      some (.returned 4 3 [7,8,9]) := by decide +kernel
  obtain ⟨t,run,phase⟩ := Option.map_eq_some_iff.mp ran
  have balanced : Balanced ⟨3,10,5,0⟩ := ⟨by decide,by decide,by decide⟩
  obtain ⟨_,delivers,_,most,_⟩ := readCharges balanced (by decide) run phase
  obtain ⟨k,fd,position,delivered,_,offset⟩ := delivers (by decide)
  exact ⟨t,run,phase,le_trans most (by decide),k,fd,position,delivered,offset⟩

end IPv4Media.ReadCharge
