import IPv4Media.Server
import Mathlib.Algebra.BigOperators.Ring.Finset
import Mathlib.Algebra.Order.BigOperators.Group.Finset

/-! What all channels together put on the network. Each thread pays for its octets from a
bucket of its own, so over any stretch of a run the total is bounded by what the buckets
held and what the ticks brought them. -/
namespace IPv4Media.Bandwidth
open Octets Proto Playlist ChannelSender TokenBucket MediaLibrary Execution Interleaving Server
open FlowControl (Phase Flow FlowStep flowInit afterRead flowSound)

variable {φ : Type} {content : Path → Bytes} {behind : φ → Bytes} {files : List Path} {o : ByteOrder} {chnid : UInt8}

def sentOctets (sent : List Bytes) : Nat := (sent.map fun d => d.length - channelDataOffset).sum

/- Tokens taken from the bucket for octets that are not on the network yet. -/
def inFlight : Phase φ → Int
  | .idle => 0
  | .granted n => n
  | .refunding read rest => read.len + rest
  | .sending read => read.len

def isTick : FlowControl.Event content behind files → Bool
  | .tick => true
  | _ => false

def ticks (events : List (FlowControl.Event content behind files)) : Nat := events.countP isTick

structure Metered (cps burst : Int) (f : Flow φ) : Prop where
  balanced : Balanced f.bucket
  rate : f.bucket.cps = cps
  depth : f.bucket.burst = burst
  low : 0 ≤ inFlight f.phase
  high : inFlight f.phase ≤ burst
  least : ∀ n, f.phase = .granted n → 1 ≤ n
  owes : ∀ read rest, f.phase = .refunding read rest → 0 ≤ rest ∧ read.len = read.buf.length
  holds : ∀ read, f.phase = .sending read → read.len = read.buf.length

def level (f : Flow φ) : Int := f.bucket.token + inFlight f.phase + sentOctets f.snder.sent

variable {cps burst : Int}

theorem meteredInit {slot : Nat} {ch : ChannelContext φ} (params : Params cps burst) :
    Metered cps burst (flowInit cps burst slot ch) := by
  have depth := params.depth
  exact ⟨⟨params,Int.le_refl 0,by simp only [flowInit]; omega⟩,rfl,rfl,Int.le_refl 0,
    by simp only [flowInit,inFlight]; omega,by simp [flowInit],by simp [flowInit],by simp [flowInit]⟩

theorem sentOctetsSnoc (sent : List Bytes) (seq : UInt32) (data : Bytes) :
    sentOctets (sent ++ [msgChannel o seq chnid data]) = sentOctets sent + data.length := by
  simp [sentOctets]

theorem afterReadOctets (s : Snder φ) {read : Read φ} (length : read.len = read.buf.length) (ok : Bool) :
    (sentOctets (afterRead o chnid s read ok).sent : Int) ≤ sentOctets s.sent + read.len := by
  have positive : ¬ read.len < 0 := by omega
  simp only [afterRead,if_neg positive]
  split
  · simp only [sentOctetsSnoc]
    omega
  · simp only
    omega

theorem meteredStep {f g : Flow φ} {e : FlowControl.Event content behind files} (metered : Metered cps burst f)
    (step : FlowStep o chnid f e g) : Metered cps burst g ∧ level g ≤ level f + (if isTick e then cps else 0) := by
  obtain ⟨balanced,rate,depth,low,high,least,owes,holds⟩ := metered
  cases step with
  | tick bucket added =>
    obtain ⟨c,made,kept,rate',depth',_,most,_⟩ := creditSpec balanced
    cases Option.some.inj (added.symm.trans made)
    refine ⟨⟨kept,rate'.trans rate,depth'.trans depth,low,high,least,owes,holds⟩,?_⟩
    simp only [level,isTick,if_true]
    omega
  | fetch n bucket idle running got =>
    obtain ⟨some_,_,most,spent,kept,rate',depth',_⟩ := fetchSpec balanced (by decide) got
    have flight : inFlight f.phase = 0 := by rw [idle]; rfl
    refine ⟨⟨kept,rate'.trans rate,depth'.trans depth,?_,?_,?_,by simp,by simp⟩,?_⟩
    · simp only [inFlight]
      omega
    · simp only [inFlight]
      omega
    · intro m same
      cases Phase.granted.inj same
      exact some_
    · simp only [level,flight,isTick,Bool.false_eq_true,if_false]
      simp only [inFlight]
      omega
  | charged server iterations n read granted source whole =>
    have some_ := least n granted
    have length := readLength source
    have flight : inFlight f.phase = n := by rw [granted]; rfl
    rw [flight] at low high
    have all : read.len = n := by omega
    refine ⟨⟨balanced,rate,depth,?_,?_,by simp,by simp,?_⟩,?_⟩
    · simp only [inFlight]
      omega
    · simp only [inFlight]
      omega
    · intro other same
      cases Phase.sending.inj same
      exact length.1
    · simp only [level,flight,isTick,Bool.false_eq_true,if_false]
      simp only [inFlight]
      omega
  | owing server iterations n read granted source part =>
    have some_ := least n granted
    have length := readLength source
    have flight : inFlight f.phase = n := by rw [granted]; rfl
    rw [flight] at low high
    refine ⟨⟨balanced,rate,depth,?_,?_,by simp,?_,by simp⟩,?_⟩
    · simp only [inFlight]
      omega
    · simp only [inFlight]
      omega
    · intro other rest same
      obtain ⟨rfl,rfl⟩ := Phase.refunding.inj same
      exact ⟨by omega,length.1⟩
    · simp only [level,flight,isTick,Bool.false_eq_true,if_false]
      simp only [inFlight]
      omega
  | giveBack read rest bucket owing added =>
    obtain ⟨positive,length⟩ := owes read rest owing
    have flight : inFlight f.phase = read.len + rest := by rw [owing]; rfl
    rw [flight] at low high
    obtain ⟨c,made,kept,rate',depth',_,most,_⟩ := returnSpec balanced positive (by omega)
    cases Option.some.inj (added.symm.trans made)
    refine ⟨⟨kept,rate'.trans rate,depth'.trans depth,?_,?_,by simp,by simp,?_⟩,?_⟩
    · simp only [inFlight]
      omega
    · simp only [inFlight]
      omega
    · intro other same
      cases Phase.sending.inj same
      exact length
    · simp only [level,flight,isTick,Bool.false_eq_true,if_false]
      simp only [inFlight]
      omega
  | send ok read sending =>
    have length := holds read sending
    have flight : inFlight f.phase = read.len := by rw [sending]; rfl
    rw [flight] at low high
    have sent := @afterReadOctets φ o chnid f.snder read length ok
    refine ⟨⟨balanced,rate,depth,Int.le_refl 0,?_,by simp,by simp,by simp⟩,?_⟩
    · simp only [inFlight]
      omega
    · simp only [level,flight,isTick,Bool.false_eq_true,if_false]
      simp only [inFlight]
      omega

theorem ticksGain (events : List (FlowControl.Event content behind files)) :
    (events.map fun e => if isTick e then cps else 0).sum = ticks events * cps := by
  induction events with
  | nil => simp [ticks]
  | cons e events ih =>
    rw [List.map_cons,List.sum_cons,ih]
    simp only [ticks,List.countP_cons]
    cases isTick e
    · simp
    · simp only [if_true,Nat.cast_add,Nat.cast_one]
      ring

theorem meteredRun {f g : Flow φ} {events : List (FlowControl.Event content behind files)} (metered : Metered cps burst f)
    (run : exec (FlowControl.next o chnid) f events = some g) :
    Metered cps burst g ∧ level g ≤ level f + ticks events * cps := by
  have step : ∀ f (e : FlowControl.Event content behind files) g, Metered cps burst f →
      FlowControl.next o chnid f e = some g →
      Metered cps burst g ∧ level g + 0 ≤ level f + (if isTick e then cps else 0) := by
    intro f e g metered step
    obtain ⟨kept,paid⟩ := meteredStep metered (flowSound step)
    exact ⟨kept,by omega⟩
  have keep : ∀ f (e : FlowControl.Event content behind files) g, Metered cps burst f →
      FlowControl.next o chnid f e = some g → Metered cps burst g := fun f e g metered moved => (step f e g metered moved).1
  have paid := @balance _ _ _ (Metered cps burst) level (fun e => if isTick e then cps else 0) (fun _ => 0) keep
    (fun f e g metered moved => (step f e g metered moved).2) f g events metered run
  rw [ticksGain] at paid
  simp only [List.map_const',List.sum_replicate,nsmul_zero,add_zero] at paid
  exact ⟨invariant metered keep run,paid⟩

theorem levelInit {slot : Nat} {ch : ChannelContext φ} : level (flowInit cps burst slot ch) = 0 := rfl

theorem levelBounds {f : Flow φ} (metered : Metered cps burst f) :
    sentOctets f.snder.sent ≤ level f ∧ level f ≤ 2 * burst + sentOctets f.snder.sent := by
  have full := metered.balanced.high
  have some_ := metered.balanced.low
  have low := metered.low
  have high := metered.high
  rw [metered.depth] at full
  simp only [level]
  omega

def audio (st : Station φ) : Thread st → Bytes → Nat
  | none, _ => 0
  | some _, d => d.length - channelDataOffset

def audioOctets (st : Station φ) (log : List (Thread st × Bytes)) : Nat := (log.map fun entry => audio st entry.1 entry.2).sum

theorem audioChannels (st : Station φ) (log : List (Thread st × Bytes)) :
    audioOctets st log = ∑ k, sentOctets (ofMachine (some k) log) := by
  rw [audioOctets,logSum (audio st),Fintype.sum_option]
  have none_ : ((ofMachine none log).map (audio st none)).sum = 0 := by
    change ((ofMachine none log).map fun _ => 0).sum = 0
    simp
  rw [none_,zero_add]
  rfl

theorem channelParams : Params tbfCps tbfBurst := by decide

variable {st : Station φ}

theorem channelRun {es : List (Sigma (Label st))} {s : Wire st} (run : exec (serverNext st) (start st) es = some s)
    (k : Fin st.owners.length) :
    Metered tbfCps tbfBurst (s.part (some k) : Flow φ) ∧
    ofMachine (some k) s.log = (s.part (some k) : Flow φ).snder.sent ∧
    level (s.part (some k) : Flow φ) ≤ ticks (own (some k) es : List (FlowControl.Event _ _ _)) * tbfCps := by
  have mine := jointOwn run (some k)
  obtain ⟨metered,paid⟩ := meteredRun (meteredInit channelParams) mine
  refine ⟨metered,loggedRun historyGrows (startLogged st) run (some k),?_⟩
  rw [levelInit] at paid
  omega

/- From the start every octet of audio has been brought by a tick. In any stretch of a run the
buckets add what they held, at most twice their depth each. -/
theorem serverBandwidth {es w : List (Sigma (Label st))} {s t : Wire st} {n m : Nat}
    (run : exec (serverNext st) (start st) es = some s) (later : exec (serverNext st) s w = some t)
    (before : ∀ k, ticks (own (some k) es : List (FlowControl.Event _ _ _)) ≤ n)
    (during : ∀ k, ticks (own (some k) w : List (FlowControl.Event _ _ _)) ≤ m) :
    (audioOctets st s.log : Int) ≤ st.owners.length * (n * tbfCps) ∧
    (audioOctets st t.log : Int) ≤ audioOctets st s.log + st.owners.length * (2 * tbfBurst + m * tbfCps) := by
  have rate : 0 ≤ tbfCps := by decide
  have first : ∀ k, (sentOctets (ofMachine (some k) s.log) : Int) ≤ n * tbfCps := by
    intro k
    obtain ⟨metered,sent,paid⟩ := channelRun run k
    have held := (levelBounds metered).1
    have ticked : (ticks (own (some k) es : List (FlowControl.Event _ _ _)) : Int) * tbfCps ≤ n * tbfCps :=
      Int.mul_le_mul_of_nonneg_right (by exact_mod_cast before k) rate
    rw [sent]
    omega
  have second : ∀ k, (sentOctets (ofMachine (some k) t.log) : Int) ≤
      sentOctets (ofMachine (some k) s.log) + (2 * tbfBurst + m * tbfCps) := by
    intro k
    obtain ⟨metered,sent,_⟩ := channelRun run k
    have whole : exec (serverNext st) (start st) (es ++ w) = some t := by rw [execAppend,run]; exact later
    obtain ⟨_,sentLater,_⟩ := channelRun whole k
    obtain ⟨meteredLater,paid⟩ := meteredRun metered (jointOwn later (some k))
    have most := (levelBounds metered).2
    have held := (levelBounds meteredLater).1
    have ticked : (ticks (own (some k) w : List (FlowControl.Event _ _ _)) : Int) * tbfCps ≤ m * tbfCps :=
      Int.mul_le_mul_of_nonneg_right (by exact_mod_cast during k) rate
    rw [sent,sentLater]
    omega
  rw [audioChannels,audioChannels]
  push_cast
  constructor
  · calc ∑ k, (sentOctets (ofMachine (some k) s.log) : Int) ≤ ∑ _k : Fin st.owners.length, (n : Int) * tbfCps :=
          Finset.sum_le_sum fun k _ => first k
      _ = st.owners.length * (n * tbfCps) := by rw [Finset.sum_const,Finset.card_univ,Fintype.card_fin,nsmul_eq_mul]
  · calc ∑ k, (sentOctets (ofMachine (some k) t.log) : Int)
        ≤ ∑ k, ((sentOctets (ofMachine (some k) s.log) : Int) + (2 * tbfBurst + m * tbfCps)) :=
          Finset.sum_le_sum fun k _ => second k
      _ = _ := by rw [Finset.sum_add_distrib,Finset.sum_const,Finset.card_univ,Fintype.card_fin,nsmul_eq_mul]

def sampleStretch : List (Sigma (Label sampleStation)) := [threadStep .tick,threadStep .fetch]

theorem sampleBandwidth : ∃ s t, exec (serverNext sampleStation) (start sampleStation) sampleSteps = some s ∧
    exec (serverNext sampleStation) s sampleStretch = some t ∧ audioOctets sampleStation t.log = 3 ∧
    (audioOctets sampleStation s.log : Int) ≤ 1 * (2 * tbfCps) := by
  have ran : (exec (serverNext sampleStation) (start sampleStation) (sampleSteps ++ sampleStretch)).map
      (fun t => audioOctets sampleStation t.log) = some 3 := by decide +kernel
  obtain ⟨t,whole,total⟩ := Option.map_eq_some_iff.mp ran
  obtain ⟨s,run,later⟩ := execSplit whole
  have before : ∀ k, ticks (own (some k) sampleSteps : List (FlowControl.Event _ _ _)) ≤ 2 := by
    rintro ⟨k,below⟩
    obtain rfl : k = 0 := Nat.lt_one_iff.mp below
    change ticks (own sampleThread sampleSteps : List (FlowControl.Event _ _ _)) ≤ 2
    decide +kernel
  have during : ∀ k, ticks (own (some k) sampleStretch : List (FlowControl.Event _ _ _)) ≤ 1 := by
    rintro ⟨k,below⟩
    obtain rfl : k = 0 := Nat.lt_one_iff.mp below
    change ticks (own sampleThread sampleStretch : List (FlowControl.Event _ _ _)) ≤ 1
    decide +kernel
  exact ⟨s,t,run,later,total,(serverBandwidth run later before during).1⟩

end IPv4Media.Bandwidth
