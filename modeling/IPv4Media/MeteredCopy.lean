import IPv4Media.Library.Execution
import IPv4Media.Library.Octets
import IPv4Media.TokenBucket

/-! The copy loop over one bucket (mytbf_test.c). It means to give back what a short read
leaves of its tokens, and calls mytbf_fetchtoken for it. Ticks may come between any two
calls; read and write may stop short. -/
namespace IPv4Media.MeteredCopy
open Octets TokenBucket Execution

def cps : Int := 5
def burst : Int := 5
def bufferSize : Int := 1024

/- Where main is, with the locals it needs there. rest is buf from pos on. -/
inductive Pc where
  | fetch
  | read (tokenGet : Int)
  | giveBack (missing : Int) (rest : Bytes)
  | write (rest : Bytes)
  | ended
  | readError
  | writeError
  deriving DecidableEq, Repr

/- ticks counts the credits, taken the tokens of all fetches, again those of the fetches
that should give back, short what they should have given, shortReads how many there were. -/
structure Copy where
  bucket : Mytbf
  offset : Nat
  out : Bytes
  pc : Pc
  ticks : Int
  taken : Int
  short : Int
  again : Int
  shortReads : Int
  deriving DecidableEq, Repr

def start (slot : Nat) : Copy := ⟨⟨cps,burst,0,slot⟩,0,[],.fetch,0,0,0,0,0⟩

/- What read and write answer; none for -1. -/
inductive Event where
  | tick
  | fetch
  | read (n : Option Nat)
  | giveBack
  | write (n : Option Nat)
  deriving DecidableEq, Repr

/- while (read_return > 0) -/
def writing (rest : Bytes) : Pc := if rest = [] then .fetch else .write rest

def afterRead (tokenGet : Int) (buf : Bytes) : Pc :=
  if tokenGet - buf.length > 0 then .giveBack (tokenGet - buf.length) buf else writing buf

variable (file : Bytes)

def next (s : Copy) : Event → Option Copy
  | .tick => do
    let bucket ← credit s.bucket
    some { s with bucket, ticks := s.ticks + 1 }
  | .fetch => match s.pc with
    | .fetch => do
      let (n,bucket) ← fetchtoken s.bucket bufferSize
      some { s with bucket, taken := s.taken + n, pc := .read n }
    | _ => none
  | .read n => match s.pc with
    | .read tokenGet => match n with
      | none => some { s with pc := .readError }
      | some n =>
        let buf := (file.drop s.offset).take n
        -- read stops short as it likes, but answers 0 at the end only
        if (n : Int) ≤ tokenGet ∧ s.offset + n ≤ file.length then
          if n = 0 then if s.offset = file.length then some { s with pc := .ended } else none
          else some { s with
            offset := s.offset + n
            pc := afterRead tokenGet buf
            short := s.short + (tokenGet - n)
            shortReads := s.shortReads + if tokenGet - n > 0 then 1 else 0 }
        else none
    | _ => none
  | .giveBack => match s.pc with
    | .giveBack missing rest => do
      let (n,bucket) ← fetchtoken s.bucket missing
      some { s with bucket, taken := s.taken + n, again := s.again + n, pc := writing rest }
    | _ => none
  | .write n => match s.pc with
    | .write rest => match n with
      | none => some { s with pc := .writeError }
      | some n =>
        if n ≤ rest.length then some { s with out := s.out ++ rest.take n, pc := writing (rest.drop n) } else none
    | _ => none

inductive Step (s : Copy) : Event → Copy → Prop where
  | tick (bucket : Mytbf) (added : credit s.bucket = some bucket) :
      Step s .tick { s with bucket, ticks := s.ticks + 1 }
  | fetch (n : Int) (bucket : Mytbf) (pc : s.pc = .fetch) (got : fetchtoken s.bucket bufferSize = some (n,bucket)) :
      Step s .fetch { s with bucket, taken := s.taken + n, pc := .read n }
  | readFails (tokenGet : Int) (pc : s.pc = .read tokenGet) : Step s (.read none) { s with pc := .readError }
  | readEnds (tokenGet : Int) (pc : s.pc = .read tokenGet) (all : s.offset = file.length) :
      Step s (.read (some 0)) { s with pc := .ended }
  | read (tokenGet : Int) (n : Nat) (pc : s.pc = .read tokenGet) (most : (n : Int) ≤ tokenGet)
      (inside : s.offset + n ≤ file.length) (some_ : n ≠ 0) :
      Step s (.read (some n)) { s with
        offset := s.offset + n
        pc := afterRead tokenGet ((file.drop s.offset).take n)
        short := s.short + (tokenGet - n)
        shortReads := s.shortReads + if tokenGet - n > 0 then 1 else 0 }
  | giveBack (missing : Int) (rest : Bytes) (n : Int) (bucket : Mytbf) (pc : s.pc = .giveBack missing rest)
      (got : fetchtoken s.bucket missing = some (n,bucket)) :
      Step s .giveBack { s with bucket, taken := s.taken + n, again := s.again + n, pc := writing rest }
  | writeFails (rest : Bytes) (pc : s.pc = .write rest) : Step s (.write none) { s with pc := .writeError }
  | write (rest : Bytes) (n : Nat) (pc : s.pc = .write rest) (most : n ≤ rest.length) :
      Step s (.write (some n)) { s with out := s.out ++ rest.take n, pc := writing (rest.drop n) }

variable {file}

theorem stepSound {s t : Copy} {e : Event} (h : next file s e = some t) : Step file s e t := by
  cases e with
  | tick =>
    obtain ⟨bucket,added,last⟩ := Option.bind_eq_some_iff.mp h
    cases Option.some.inj last
    exact .tick bucket added
  | fetch =>
    simp only [next] at h
    split at h <;> try contradiction
    rename_i pc
    obtain ⟨⟨n,bucket⟩,got,last⟩ := Option.bind_eq_some_iff.mp h
    cases Option.some.inj last
    exact .fetch n bucket pc got
  | read n =>
    simp only [next] at h
    split at h <;> try contradiction
    rename_i tokenGet pc
    cases n with
    | none =>
      cases Option.some.inj h
      exact .readFails tokenGet pc
    | some n =>
      simp only at h
      split at h <;> try contradiction
      rename_i allowed
      by_cases none_ : n = 0
      · subst none_
        rw [if_pos rfl] at h
        split at h <;> try contradiction
        rename_i all
        cases Option.some.inj h
        exact .readEnds tokenGet pc all
      · rw [if_neg none_] at h
        cases Option.some.inj h
        exact .read tokenGet n pc allowed.1 allowed.2 none_
  | giveBack =>
    simp only [next] at h
    split at h <;> try contradiction
    rename_i missing rest pc
    obtain ⟨⟨n,bucket⟩,got,last⟩ := Option.bind_eq_some_iff.mp h
    cases Option.some.inj last
    exact .giveBack missing rest n bucket pc got
  | write n =>
    simp only [next] at h
    split at h <;> try contradiction
    rename_i rest pc
    cases n with
    | none =>
      cases Option.some.inj h
      exact .writeFails rest pc
    | some n =>
      simp only at h
      split at h <;> try contradiction
      rename_i most
      cases Option.some.inj h
      exact .write rest n pc most

def held : Pc → Bytes
  | .giveBack _ rest => rest
  | .write rest => rest
  | _ => []

def inHand : Pc → Int
  | .read tokenGet => tokenGet
  | _ => 0

def owing : Pc → Int
  | .giveBack missing _ => missing
  | _ => 0

def givingBack : Pc → Int
  | .giveBack _ _ => 1
  | _ => 0

def Fits : Pc → Prop
  | .read tokenGet => 1 ≤ tokenGet
  | .giveBack missing rest => 1 ≤ missing ∧ rest ≠ []
  | .write rest => rest ≠ []
  | _ => True

structure Kept (file : Bytes) (s : Copy) : Prop where
  balanced : Balanced s.bucket
  rate : s.bucket.cps = cps
  depth : s.bucket.burst = burst
  fits : Fits s.pc
  inside : s.offset ≤ file.length
  flow : s.pc ≠ .writeError → s.out ++ held s.pc = file.take s.offset
  prefixed : s.out <+: file
  written : s.out.length ≤ s.offset
  done : s.pc = .ended → s.offset = file.length
  paid : s.bucket.token + s.taken ≤ cps * s.ticks
  spent : s.offset + s.short + s.again + inHand s.pc ≤ s.taken
  most : s.again + owing s.pc ≤ s.short
  least : s.shortReads ≤ s.again + givingBack s.pc

theorem copyParams : Params cps burst := by decide

theorem keptStart (slot : Nat) : Kept file (start slot) where
  balanced := ⟨copyParams,Int.le_refl 0,by simp [start,burst]⟩
  rate := rfl
  depth := rfl
  fits := True.intro
  inside := Nat.zero_le _
  flow := fun _ => rfl
  prefixed := List.nil_prefix
  written := Nat.le_refl 0
  done := by simp [start]
  paid := by simp [start]
  spent := by simp [start,inHand]
  most := by simp [start,owing]
  least := by simp [start,givingBack]

theorem writingHeld (rest : Bytes) : held (writing rest) = rest := by
  unfold writing
  split
  · rename_i empty
    rw [empty]
    rfl
  · rfl

theorem writingFits (rest : Bytes) : Fits (writing rest) := by
  unfold writing
  split
  · exact True.intro
  · assumption

theorem writingPlain (rest : Bytes) : writing rest ≠ .ended ∧ inHand (writing rest) = 0 ∧ owing (writing rest) = 0 ∧
    givingBack (writing rest) = 0 := by
  unfold writing
  split <;> simp [inHand,owing,givingBack]

structure AfterRead (tokenGet : Int) (buf : Bytes) (pc : Pc) : Prop where
  fits : Fits pc
  held : held pc = buf
  going : pc ≠ .ended
  inHand : inHand pc = 0
  owing : owing pc = tokenGet - buf.length
  counted : givingBack pc = if tokenGet - buf.length > 0 then 1 else 0

theorem afterReadSpec {tokenGet : Int} {buf : Bytes} (some_ : buf ≠ []) (most : buf.length ≤ tokenGet) :
    AfterRead tokenGet buf (afterRead tokenGet buf) := by
  unfold afterRead
  by_cases part : tokenGet - buf.length > 0
  · rw [if_pos part]
    exact ⟨⟨by omega,some_⟩,rfl,by simp,rfl,rfl,(if_pos part).symm⟩
  · rw [if_neg part]
    obtain ⟨going,none_,nothing,no⟩ := writingPlain buf
    exact ⟨writingFits buf,writingHeld buf,going,none_,by rw [nothing]; omega,by rw [no,if_neg part]⟩

theorem keptStep {s t : Copy} {e : Event} (kept : Kept file s) (step : Step file s e t) : Kept file t := by
  have paid := kept.paid
  have spent := kept.spent
  have most := kept.most
  have least := kept.least
  cases step with
  | tick bucket added =>
    obtain ⟨c,credited,balanced,rate,depth,_,more,_⟩ := creditSpec kept.balanced
    cases Option.some.inj (added.symm.trans credited)
    have five := kept.rate
    refine ⟨balanced,rate.trans kept.rate,depth.trans kept.depth,kept.fits,kept.inside,kept.flow,kept.prefixed,kept.written,
      kept.done,?_,spent,most,least⟩
    simp only
    rw [Int.mul_add]
    omega
  | fetch n bucket pc got =>
    obtain ⟨positive,_,_,left,balanced,rate,depth,_⟩ := fetchSpec kept.balanced (by decide : 1 ≤ bufferSize) got
    have flow := kept.flow (by rw [pc]; simp)
    rw [pc] at flow spent most least
    refine ⟨balanced,rate.trans kept.rate,depth.trans kept.depth,positive,kept.inside,fun _ => flow,kept.prefixed,kept.written,
      by simp,by simp only; omega,?_,most,least⟩
    simp only [inHand] at spent ⊢
    omega
  | readFails tokenGet pc =>
    have flow := kept.flow (by rw [pc]; simp)
    have fits := kept.fits
    rw [pc] at flow spent most least fits
    refine ⟨kept.balanced,kept.rate,kept.depth,True.intro,kept.inside,fun _ => flow,kept.prefixed,kept.written,by simp,paid,
      ?_,most,least⟩
    simp only [inHand,Fits] at spent fits ⊢
    omega
  | readEnds tokenGet pc all =>
    have flow := kept.flow (by rw [pc]; simp)
    have fits := kept.fits
    rw [pc] at flow spent most least fits
    refine ⟨kept.balanced,kept.rate,kept.depth,True.intro,kept.inside,fun _ => flow,kept.prefixed,kept.written,
      fun _ => all,paid,?_,most,least⟩
    simp only [inHand,Fits] at spent fits ⊢
    omega
  | read tokenGet n pc small inside some_ =>
    have flow := kept.flow (by rw [pc]; simp)
    rw [pc] at flow spent most least
    have length : ((file.drop s.offset).take n).length = n := by
      rw [List.length_take,List.length_drop]
      omega
    have filled : (file.drop s.offset).take n ≠ [] := by
      intro empty
      rw [empty] at length
      exact some_ length.symm
    have after := @afterReadSpec tokenGet _ filled (by rw [length]; exact small)
    refine ⟨kept.balanced,kept.rate,kept.depth,after.fits,inside,?_,kept.prefixed,Nat.le_add_right_of_le kept.written,
      fun ended => absurd ended after.going,paid,?_,?_,?_⟩
    · intro _
      simp only [held,List.append_nil] at flow
      simp only [after.held]
      rw [flow,List.take_add]
    · simp only [inHand] at spent
      simp only [after.inHand]
      omega
    · simp only [owing] at most
      simp only [after.owing,length]
      omega
    · simp only [givingBack] at least
      simp only [after.counted,length]
      omega
  | giveBack missing rest n bucket pc got =>
    have fits := kept.fits
    have flow := kept.flow (by rw [pc]; simp)
    rw [pc] at flow spent most least fits
    obtain ⟨positive,bounded,_,left,balanced,rate,depth,_⟩ := fetchSpec kept.balanced fits.1 got
    obtain ⟨going,none_,nothing,no⟩ := writingPlain rest
    refine ⟨balanced,rate.trans kept.rate,depth.trans kept.depth,writingFits rest,kept.inside,?_,kept.prefixed,
      kept.written,fun ended => absurd ended going,by simp only; omega,?_,?_,?_⟩
    · intro _
      simp only [writingHeld]
      exact flow
    · simp only [inHand] at spent
      simp only [none_]
      omega
    · simp only [owing] at most
      simp only [nothing]
      omega
    · simp only [givingBack] at least
      simp only [no]
      omega
  | writeFails rest pc =>
    rw [pc] at spent most least
    exact ⟨kept.balanced,kept.rate,kept.depth,True.intro,kept.inside,fun alive => absurd rfl alive,kept.prefixed,
      kept.written,by simp,paid,spent,most,least⟩
  | write rest n pc small =>
    have flow := kept.flow (by rw [pc]; simp)
    rw [pc] at flow spent most least
    obtain ⟨going,none_,nothing,no⟩ := writingPlain (rest.drop n)
    have whole : s.out ++ rest.take n ++ rest.drop n = file.take s.offset := by
      rw [List.append_assoc,List.take_append_drop]
      exact flow
    have length := congrArg List.length whole
    simp only [List.length_append,List.length_take,List.length_drop] at length
    refine ⟨kept.balanced,kept.rate,kept.depth,writingFits _,kept.inside,?_,?_,?_,fun ended => absurd ended going,paid,
      ?_,?_,?_⟩
    · intro _
      simp only [writingHeld]
      exact whole
    · refine List.IsPrefix.trans ?_ (List.take_prefix s.offset file)
      rw [← whole]
      exact List.prefix_append _ _
    · simp only [List.length_append,List.length_take]
      omega
    · simp only [none_]
      exact spent
    · simp only [nothing]
      exact most
    · simp only [no]
      exact least

theorem keptRun {slot : Nat} {es : List Event} {s : Copy} (run : exec (next file) (start slot) es = some s) : Kept file s :=
  invariant (keptStart slot) (fun _ _ _ kept step => keptStep kept (stepSound step)) run

theorem endedWhole {s : Copy} (kept : Kept file s) (ended : s.pc = .ended) : s.out = file := by
  have flow := kept.flow (by rw [ended]; simp)
  rw [ended,kept.done ended,List.take_length] at flow
  exact (List.append_nil _).symm.trans flow

structure Copied (file : Bytes) (s : Copy) : Prop where
  prefixed : s.out <+: file
  whole : s.pc = .ended → s.out = file
  limited : s.bucket.token + s.taken ≤ cps * s.ticks
  price : s.out.length + s.short + s.again ≤ s.taken
  again : s.again ≤ s.short ∧ s.shortReads ≤ s.again + givingBack s.pc

/- Standard output gets the file from the front and no faster than the ticks allow. The
tokens short reads leave over are lost. Over a whole run the calls that are to give them
back take one token each at least and together no more than the short reads left. -/
theorem meteredCopy {slot : Nat} {es : List Event} {s : Copy} (run : exec (next file) (start slot) es = some s) :
    Copied file s := by
  have kept := keptRun run
  have spent := kept.spent
  have most := kept.most
  have written := kept.written
  have fits := kept.fits
  have hand : 0 ≤ inHand s.pc ∧ 0 ≤ owing s.pc := by
    cases pc : s.pc with
    | read tokenGet =>
      rw [pc] at fits
      simp only [Fits] at fits
      simp only [inHand,owing]
      omega
    | giveBack missing rest =>
      rw [pc] at fits
      have one := fits.1
      simp only [inHand,owing]
      omega
    | _ => simp [inHand,owing]
  exact ⟨kept.prefixed,endedWhole kept,kept.paid,by omega,by omega,kept.least⟩

theorem keptReach {goal : Copy → Prop} {s t : Copy} {e : Event} (kept : Kept file s) (step : next file s e = some t)
    (rest : Kept file t → CanReach (next file) goal t) : CanReach (next file) goal s :=
  reachStep step (rest (keptStep kept (stepSound step)))

theorem tokensCome {goal : Copy → Prop} {s : Copy} (kept : Kept file s)
    (rest : ∀ t : Copy, Kept file t → t.pc = s.pc → t.offset = s.offset → 1 ≤ t.bucket.token →
      CanReach (next file) goal t) : CanReach (next file) goal s := by
  by_cases filled : 1 ≤ s.bucket.token
  · exact rest s kept rfl rfl filled
  · obtain ⟨bucket,added,_⟩ := creditSpec kept.balanced
    have some_ := creditPositive kept.balanced (by rw [kept.rate]; decide) added
    have step : next file s .tick = some { s with bucket, ticks := s.ticks + 1 } := by
      simp only [next,added,Option.bind_eq_bind,Option.bind_some]
    exact keptReach kept step fun after => rest _ after rfl rfl some_

theorem grants {b : Mytbf} (size : Int) (filled : 1 ≤ b.token) : ∃ n bucket, fetchtoken b size = some (n,bucket) := by
  rw [fetchtoken,if_neg (by omega)]
  exact ⟨_,_,rfl⟩

structure Again (file : Bytes) (offset : Nat) (t : Copy) : Prop where
  kept : Kept file t
  pc : t.pc = .fetch
  offset : t.offset = offset

theorem writeAgain {s : Copy} {rest : Bytes} (kept : Kept file s) (pc : s.pc = .write rest) :
    CanReach (next file) (Again file s.offset) s := by
  have step : next file s (.write (some rest.length)) = some { s with out := s.out ++ rest, pc := .fetch } := by
    simp [next,pc,writing]
  exact keptReach kept step fun after => reachNow ⟨after,rfl,rfl⟩

theorem writingAgain {s : Copy} {rest : Bytes} (kept : Kept file s) (pc : s.pc = writing rest) :
    CanReach (next file) (Again file s.offset) s := by
  unfold writing at pc
  split at pc
  · exact reachNow ⟨kept,pc,rfl⟩
  · exact writeAgain kept pc

theorem giveBackAgain {s : Copy} {missing : Int} {rest : Bytes} (kept : Kept file s)
    (pc : s.pc = .giveBack missing rest) : CanReach (next file) (Again file s.offset) s := by
  refine tokensCome kept fun t after same offset filled => ?_
  rw [pc] at same
  obtain ⟨n,bucket,got⟩ := grants missing filled
  have step : next file t .giveBack =
      some { t with bucket, taken := t.taken + n, again := t.again + n, pc := writing rest } := by
    simp only [next,same,got,Option.bind_eq_bind,Option.bind_some]
  rw [← offset]
  exact keptReach after step fun later => writingAgain later rfl

theorem afterReadAgain {s : Copy} {tokenGet : Int} {buf : Bytes} (kept : Kept file s)
    (pc : s.pc = afterRead tokenGet buf) : CanReach (next file) (Again file s.offset) s := by
  unfold afterRead at pc
  split at pc
  · exact giveBackAgain kept pc
  · exact writingAgain kept pc

theorem readGoesOn {s : Copy} {tokenGet : Int} (kept : Kept file s) (pc : s.pc = .read tokenGet) :
    CanReach (next file)
      (fun t => Kept file t ∧ (t.pc = .ended ∨ Again file (s.offset + 1) t ∧ s.offset < file.length)) s := by
  have fits := kept.fits
  rw [pc] at fits
  by_cases all : s.offset = file.length
  · have step : next file s (.read (some 0)) = some { s with pc := .ended } := by
      have none_ : (0 : Int) ≤ tokenGet := by simp only [Fits] at fits; omega
      simp [next,pc,all,none_]
    exact keptReach kept step fun after => reachNow ⟨after,.inl rfl⟩
  · have inside := kept.inside
    have room : s.offset < file.length := by omega
    have one : (((1 : Nat) : Int) ≤ tokenGet ∧ s.offset + 1 ≤ file.length) := ⟨fits,by omega⟩
    generalize buffer : (file.drop s.offset).take 1 = buf
    have step : next file s (.read (some 1)) = some { s with
        offset := s.offset + 1
        pc := afterRead tokenGet buf
        short := s.short + (tokenGet - (1 : Nat))
        shortReads := s.shortReads + if tokenGet - (1 : Nat) > 0 then 1 else 0 } := by
      simp only [next,pc,buffer,if_pos one]
      rfl
    refine keptReach kept step fun after => ?_
    exact reachThen (afterReadAgain after rfl) fun t again => reachNow ⟨again.kept,.inr ⟨again,room⟩⟩

theorem fetchReads {goal : Copy → Prop} {s : Copy} (kept : Kept file s) (pc : s.pc = .fetch)
    (rest : ∀ (t : Copy) (n : Int), Kept file t → t.pc = .read n → t.offset = s.offset → CanReach (next file) goal t) :
    CanReach (next file) goal s := by
  refine tokensCome kept fun t after same offset filled => ?_
  rw [pc] at same
  obtain ⟨n,bucket,got⟩ := grants bufferSize filled
  have step : next file t .fetch = some { t with bucket, taken := t.taken + n, pc := .read n } := by
    simp only [next,same,got,Option.bind_eq_bind,Option.bind_some]
  exact keptReach after step fun later => rest _ n later rfl offset

def Ends (file : Bytes) (t : Copy) : Prop := Kept file t ∧ t.pc = .ended

theorem fetchEnds {s : Copy} (kept : Kept file s) (pc : s.pc = .fetch) : CanReach (next file) (Ends file) s := by
  induction left : file.length - s.offset using Nat.strong_induction_on generalizing s with
  | _ m ih =>
  refine fetchReads kept pc fun t n after reading same => reachThen (readGoesOn after reading) fun u turn => ?_
  obtain ⟨later,ended | ⟨again,room⟩⟩ := turn
  · exact reachNow ⟨later,ended⟩
  · have offset := again.offset
    exact ih (file.length - u.offset) (by omega) again.kept again.pc rfl

theorem againEnds {s : Copy} {offset : Nat} (goes : CanReach (next file) (Again file offset) s) :
    CanReach (next file) (Ends file) s :=
  reachThen goes fun _ again => fetchEnds again.kept again.pc

/- As long as no call has failed the copy can be brought to its end, with the whole file
on standard output: the tokens that are not given back cost time, but never the copy. -/
theorem copyEnds {slot : Nat} {es : List Event} {s : Copy} (run : exec (next file) (start slot) es = some s)
    (reads : s.pc ≠ .readError) (writes : s.pc ≠ .writeError) :
    CanReach (next file) (fun t => t.pc = .ended ∧ t.out = file) s := by
  have kept := keptRun run
  have ends : CanReach (next file) (Ends file) s := by
    cases pc : s.pc with
    | fetch => exact fetchEnds kept pc
    | read tokenGet =>
      refine reachThen (readGoesOn kept pc) fun t turn => ?_
      obtain ⟨later,ended | ⟨again,_⟩⟩ := turn
      · exact reachNow ⟨later,ended⟩
      · exact fetchEnds again.kept again.pc
    | giveBack missing rest => exact againEnds (giveBackAgain kept pc)
    | write rest => exact againEnds (writeAgain kept pc)
    | ended => exact reachNow ⟨kept,pc⟩
    | readError => exact absurd pc reads
    | writeError => exact absurd pc writes
  exact reachThen ends fun _ there => reachNow ⟨there.2,endedWhole there.1 there.2⟩

/- A file of seven octets: the second read is three short, and what is fetched for them
is gone as well. -/
def sevenOctets : Bytes := [10,11,12,13,14,15,16]

def shortCopy : List Event :=
  [.tick,.fetch,.read (some 5),.write (some 2),.write (some 3),.tick,.fetch,.read (some 2),.tick,.giveBack,.write (some 2)]

theorem shortCopied : ∃ s, exec (next sevenOctets) (start 0) shortCopy = some s ∧ s.out = sevenOctets ∧ s.taken = 13 ∧
    Copied sevenOctets s := by
  have ran : (exec (next sevenOctets) (start 0) shortCopy).map (fun s => (s.out,s.taken)) = some (sevenOctets,13) := by
    decide +kernel
  obtain ⟨s,run,seen⟩ := Option.map_eq_some_iff.mp ran
  obtain ⟨out,taken⟩ := Prod.mk.inj seen
  exact ⟨s,run,out,taken,meteredCopy run⟩

theorem shortEnds : ∃ s, exec (next sevenOctets) (start 0) shortCopy = some s ∧
    CanReach (next sevenOctets) (fun t => t.pc = .ended ∧ t.out = sevenOctets) s := by
  have ran : (exec (next sevenOctets) (start 0) shortCopy).map (fun s => s.pc) = some .fetch := by decide +kernel
  obtain ⟨s,run,pc⟩ := Option.map_eq_some_iff.mp ran
  exact ⟨s,run,copyEnds run (by rw [pc]; simp) (by rw [pc]; simp)⟩

end IPv4Media.MeteredCopy
