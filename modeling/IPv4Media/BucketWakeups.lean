import IPv4Media.AlarmLocks

/-! Sleepers and wakers of a bucket's condition variable (mytbf.c): any number of threads
in mytbf_fetchtoken and mytbf_returntoken of any sizes, and alrm_handle, over buckets that
stay. Both mytbf_fetchtoken and alrm_handle broadcast; mytbf_returntoken does not. -/
namespace IPv4Media.BucketWakeups
open TokenBucket TimerModule TimerThreads AlarmLocks Execution

/- The calls of the threads, without the bounds TimerThreads puts on the sizes. -/
def next (s : State) : Event → Option State
  | .fetch t address size =>
    if free s t ∧ (s.mod.bucket address).isSome then some (goto s t (.fetchLock address size)) else none
  | .giveBack t address size =>
    if free s t ∧ (s.mod.bucket address).isSome then some (goto s t (.returnLock address size)) else none
  | .init _ _ _ _ => none
  | .destroy _ _ => none
  | e => TimerThreads.next s e

def asleep (s : State) (t address : Nat) : Bool :=
  match s.pc t with
  | .fetchWait a _ => a == address
  | _ => false

def tokenPositive (s : State) (address : Nat) : Bool := (s.mod.bucket address).any fun b => decide (0 < b.token)

def broadcasts (s : State) (address : Nat) : Event → Bool
  | .step t => match s.pc t with
    | .fetchTest a _ => a == address && tokenPositive s address
    | _ => false
  | .handle t => match s.handler t with
    | some (.lockBucket _ a) => a == address
    | _ => false
  | _ => false

/- Whether a sleeper has been signalled since token last became positive. A step that makes
token positive and broadcasts does the latter last. -/
def signal (address t : Nat) (s : State) (e : Event) (u : State) (signalled : Bool) : Bool :=
  if tokenPositive u address && asleep u t address then
    broadcasts s address e && asleep s t address || tokenPositive s address && signalled
  else false

def signalled (address t : Nat) (s : State) (events : List Event) : Bool :=
  carry next (signal address t) s events false

/- With the mutex free and tokens there, every sleeper has been signalled for them. -/
def NoneForgotten (start : State) (events : List Event) (s : State) : Prop :=
  ∀ address t, s.holder (.bucket address) = none → tokenPositive s address = true → asleep s t address = true →
    signalled address t start events = true

/- A mytbf_returntoken is about to bring tokens into an empty bucket on which a thread sleeps. -/
def ReturnsUnheard (s : State) (e : Event) (_ : State) : Prop :=
  ∃ r t address size b, e = .step r ∧ s.pc r = .returnLock address size ∧ asleep s t address = true ∧
    s.mod.bucket address = some b ∧ b.token ≤ 0 ∧ 0 < b.token + size ∧ 0 < b.burst

inductive Act (s : State) : Event → State → Prop where
  | quiet (e : Event) (u : State) (mod : u.mod = s.mod)
      (sleepers : ∀ t address, asleep u t address = true → asleep s t address = true) : Act s e u
  | step (t : Nat) (u : State) (quiet : s.handler t = none) (made : Step s t (s.pc t) u) : Act s (.step t) u
  | handle (t : Nat) (h : Handler) (u : State) (running : s.handler t = some h) (made : HandlerStep s t h u) :
      Act s (.handle t) u

theorem asleepGoto {s : State} {t : Nat} {pc : Pc} (other : ∀ address size, pc ≠ .fetchWait address size)
    (v address : Nat) (sleeps : asleep (goto s t pc) v address = true) : asleep s v address = true := by
  by_cases mine : v = t
  · subst mine
    unfold asleep at sleeps
    simp only [goto,updateSame] at sleeps
    cases pc with
    | fetchWait a size => exact absurd rfl (other a size)
    | _ => contradiction
  · unfold asleep at sleeps ⊢
    simpa only [goto,updateOther _ _ mine] using sleeps

theorem actSound {s u : State} {e : Event} (step : next s e = some u) : Act s e u := by
  cases e with
  | fetch t address size =>
    simp only [next] at step
    split at step <;> try contradiction
    cases Option.some.inj step
    exact .quiet _ _ rfl (asleepGoto (by simp))
  | giveBack t address size =>
    simp only [next] at step
    split at step <;> try contradiction
    cases Option.some.inj step
    exact .quiet _ _ rfl (asleepGoto (by simp))
  | init t env cps burst => contradiction
  | destroy t address => contradiction
  | check t address =>
    cases @moveSound s u (.check t address) step with
    | check _ _ idle live => exact .quiet _ _ rfl (asleepGoto (by simp))
  | wake t =>
    cases @moveSound s u (.wake t) step with
    | wake _ address size waiting quiet => exact .quiet _ _ rfl (asleepGoto (by simp))
  | step t =>
    cases @moveSound s u (.step t) step with
    | step _ _ quiet made => exact .step t u quiet made
  | alarm t =>
    cases @moveSound s u (.alarm t) step with
    | alarm _ quiet => exact .quiet _ _ rfl (fun _ _ sleeps => sleeps)
  | handle t =>
    cases @moveSound s u (.handle t) step with
    | handle _ h _ running made => exact .handle t h u running made

theorem positiveSame {s u : State} (mod : u.mod = s.mod) (address : Nat) :
    tokenPositive u address = tokenPositive s address := by rw [tokenPositive,mod,← tokenPositive]

theorem positivePut {s : State} {address other : Nat} {b : Mytbf} (apart : other ≠ address) :
    tokenPositive (putBucket s address b) other = tokenPositive s other := by
  simp only [tokenPositive,putBucket,updateOther _ _ apart]

theorem fetchPositive {b c : Mytbf} {size n : Int} (got : fetchtoken b size = some (n,c)) : 0 < b.token := by
  unfold fetchtoken at got
  split at got <;> try contradiction
  omega

theorem fetchEmpty {b : Mytbf} {size : Int} (empty : fetchtoken b size = none) : b.token ≤ 0 := by
  unfold fetchtoken at empty
  split at empty
  · assumption
  · contradiction

theorem returnPositive {b c : Mytbf} {size : Int} (added : returntoken b size = some c) :
    0 < c.token ↔ 0 < b.token + size ∧ 0 < b.burst := by
  rw [returnSum added]
  simp only
  omega

theorem positiveLive {s : State} {address : Nat} {b : Mytbf} (live : s.mod.bucket address = some b) :
    tokenPositive s address = true ↔ 0 < b.token := by
  rw [tokenPositive,live]
  exact decide_eq_true_iff

theorem positivePaid (s : State) (address : Nat) (b : Mytbf) :
    tokenPositive (putBucket s address b) address = true ↔ 0 < b.token := positiveLive (updateSame _ _ _)

theorem raisedBy {s u : State} {e : Event} {address : Nat} (act : Act s e u) (dry : tokenPositive s address = false)
    (filled : tokenPositive u address = true) :
    broadcasts s address e = true ∨ ∃ r size b, e = .step r ∧ s.pc r = .returnLock address size ∧
      s.mod.bucket address = some b ∧ b.token ≤ 0 ∧ 0 < b.token + size ∧ 0 < b.burst := by
  have changed : tokenPositive u address ≠ tokenPositive s address := by rw [dry,filled]; decide
  cases act with
  | quiet _ _ mod sleepers => exact absurd (positiveSame mod address) changed
  | step t _ quiet made =>
    generalize at_ : s.pc t = pc at made
    cases made with
    | initPlace cps burst pos free found =>
      by_cases new : address = s.mod.allocated
      · subst new
        simp [tokenPositive,place] at filled
      · refine absurd ?_ changed
        simp only [tokenPositive,place,updateOther _ _ new]
    | fetchTake a size n b c live got =>
      by_cases here : address = a
      · subst here
        rw [(positiveLive live).mpr (fetchPositive got)] at dry
        contradiction
      · exact absurd (positivePut here) changed
    | returnAdd a size b c live added free =>
      by_cases here : address = a
      · subst here
        have empty : ¬ 0 < b.token := fun some_ => by rw [(positiveLive live).mpr some_] at dry; contradiction
        obtain ⟨sum,room⟩ := (returnPositive added).mp ((positivePaid _ _ _).mp filled)
        exact .inr ⟨t,size,b,rfl,at_,live,by omega,sum,room⟩
      · exact absurd (positivePut here) changed
    | destroyFree a =>
      by_cases here : address = a
      · subst here
        simp [tokenPositive] at filled
      · refine absurd ?_ changed
        simp only [tokenPositive,updateOther _ _ here]
    | _ => exact absurd rfl changed
  | handle t h _ running made =>
    cases made with
    | credit i a b c free live added =>
      by_cases here : address = a
      · subst here
        exact .inl (by simp [broadcasts,running])
      · exact absurd (positivePut here) changed
    | _ => exact absurd rfl changed

theorem fellAsleep {s u : State} {e : Event} {t address : Nat} (act : Act s e u) (sleeps : asleep u t address = true)
    (filled : tokenPositive u address = true) : asleep s t address = true := by
  cases act with
  | quiet _ _ mod sleepers => exact sleepers t address sleeps
  | step v _ quiet made =>
    by_cases mine : t = v
    · subst mine
      generalize s.pc t = pc at made
      cases made with
      | fetchSleep a size b live empty =>
        have here : a = address := by simpa [asleep] using sleeps
        subst here
        have some_ : 0 < b.token := (positiveLive (s := s) live).mp filled
        have none_ := fetchEmpty empty
        omega
      | _ => simp [asleep] at sleeps
    · unfold asleep at sleeps ⊢
      rwa [(stepFrame made).2 t mine] at sleeps
  | handle v h _ running made =>
    unfold asleep at sleeps ⊢
    rwa [(handlerFrame made).1] at sleeps

def Heard (address t : Nat) (s : State) (signalled : Bool) : Prop :=
  tokenPositive s address = true → asleep s t address = true → signalled = true

theorem heardStep {s u : State} {e : Event} {address t : Nat} {signalled : Bool} (heard : Heard address t s signalled)
    (loud : ¬ ReturnsUnheard s e u) (step : next s e = some u) :
    Heard address t u (signal address t s e u signalled) := by
  intro filled sleeps
  have act := actSound step
  have slept := fellAsleep act sleeps filled
  rw [signal,filled,sleeps,slept]
  cases before : tokenPositive s address with
  | true => simp [heard before slept]
  | false =>
    rcases raisedBy act before filled with broadcast | ⟨r,size,b,rfl,at_,live,more⟩
    · simp [broadcast]
    · exact absurd ⟨r,t,address,size,b,rfl,at_,slept,live,more⟩ loud

theorem carriedHeard {start s : State} {events : List Event} (run : exec next start events = some s)
    (loud : Along next (fun s e u => ¬ ReturnsUnheard s e u) start events)
    (asleep_ : ∀ t address, asleep start t address = false) : NoneForgotten start events s := by
  intro address t _ filled sleeps
  have begun : Heard address t start false := by
    intro _ slept
    rw [asleep_] at slept
    contradiction
  exact carryAlong (I := Heard address t) begun (fun _ _ _ _ heard loud step => heardStep heard loud step) run loud
    filled sleeps

/- The mutex the return holds keeps all others off, and its unlock leaves the sleeper. -/
theorem unheardForgotten {start s u : State} {events : List Event} {e : Event} (run : exec next start events = some s)
    (step : next s e = some u) (unheard : ReturnsUnheard s e u) :
    ∃ f v, next u f = some v ∧ ¬ NoneForgotten start (events ++ [e,f]) v := by
  obtain ⟨r,t,address,size,b,rfl,at_,slept,live,empty,sum,room⟩ := unheard
  have dry : tokenPositive s address = false := Bool.eq_false_iff.mpr fun some_ => by
    have filled := (positiveLive live).mp some_
    omega
  have apart : t ≠ r := by
    rintro rfl
    simp [asleep,at_] at slept
  cases @moveSound s u (.step r) step with
  | step _ _ quiet made =>
    rw [at_] at made
    cases made with
    | returnAdd _ _ d c found added free =>
      cases Option.some.inj (live.symm.trans found)
      have filled := (positivePaid (took s r (.bucket address) (.returnUnlock address)) address c).mpr
        ((returnPositive added).mpr ⟨sum,room⟩)
      have unlocked : next (putBucket (took s r (.bucket address) (.returnUnlock address)) address c) (.step r) =
          some (unlock (putBucket (took s r (.bucket address) (.returnUnlock address)) address c) r (.bucket address)
            .outside) := by
        simp [next,TimerThreads.next,quiet,advance]
      refine ⟨.step r,_,unlocked,fun none_ => ?_⟩
      have still : asleep (unlock (putBucket (took s r (.bucket address) (.returnUnlock address)) address c) r
          (.bucket address) .outside) t address = true := by
        unfold asleep at slept ⊢
        simpa only [unlock,goto,putBucket,took,updateOther _ _ apart] using slept
      have told := none_ address t (by simp [unlock]) filled still
      rw [signalled,carryAppend run] at told
      simp [carry,step,unlocked,signal,broadcasts,at_,dry] at told

/- With no such return in the run none is forgotten; after one, the next step of the
returning thread leaves a sleeper that no one has told. -/
theorem noLostWakeup {mod : Module} {events : List Event} {s : State} (run : exec next (started mod) events = some s) :
    (Along next (fun s e u => ¬ ReturnsUnheard s e u) (started mod) events → NoneForgotten (started mod) events s) ∧
    (∀ e u, next s e = some u → ReturnsUnheard s e u →
      ∃ f v, next u f = some v ∧ ¬ NoneForgotten (started mod) (events ++ [e,f]) v) :=
  ⟨fun loud => carriedHeard run loud fun _ _ => rfl,fun _ _ step unheard => unheardForgotten run step unheard⟩

def quietNow (s : State) : Event → Bool
  | .step r => match s.pc r with
    | .returnLock _ _ => false
    | _ => true
  | _ => true

theorem quietSound (s : State) (e : Event) (u : State) (now : quietNow s e = true) : ¬ ReturnsUnheard s e u := by
  rintro ⟨r,t,address,size,b,rfl,at_,_⟩
  simp [quietNow,at_] at now

def oneBucket : State := started (place unloaded 0 40960 204800)

def toldSleeper : List Event :=
  [.fetch 1 0 10,.step 1,.step 1,.alarm 9,.handle 9,.handle 9,.handle 9,.handle 9]

theorem sleeperTold : ∃ s, exec next oneBucket toldSleeper = some s ∧ s.holder (.bucket 0) = none ∧
    asleep s 1 0 = true ∧ tokenPositive s 0 = true ∧ signalled 0 1 oneBucket toldSleeper = true := by
  have seen : (exec next oneBucket toldSleeper).map (fun s => (s.holder (.bucket 0),asleep s 1 0,tokenPositive s 0)) =
      some (none,true,true) := by decide +kernel
  have quiet : check next quietNow oneBucket toldSleeper = true := by decide +kernel
  obtain ⟨s,run,same⟩ := Option.map_eq_some_iff.mp seen
  obtain ⟨free,same⟩ := Prod.mk.inj same
  obtain ⟨sleeps,filled⟩ := Prod.mk.inj same
  exact ⟨s,run,free,sleeps,filled,(noLostWakeup run).1 (alongChecked quietSound quiet) 0 1 free filled sleeps⟩

/- Thread 1 takes all tokens of the first tick, thread 2 sleeps, and thread 1 gives some back. -/
def untoldSleeper : List Event :=
  [.alarm 9,.handle 9,.handle 9,.handle 9,.handle 9,.fetch 1 0 40960,.step 1,.step 1,.step 1,.fetch 2 0 10,.step 2,
   .step 2,.giveBack 1 0 100,.step 1,.step 1]

theorem sleeperForgotten : ∃ s, exec next oneBucket untoldSleeper = some s ∧
    ¬ NoneForgotten oneBucket untoldSleeper s := by
  have seen : (exec next oneBucket untoldSleeper).map (fun s => (s.holder (.bucket 0),asleep s 2 0,tokenPositive s 0)) =
      some (none,true,true) := by decide +kernel
  have untold : signalled 0 2 oneBucket untoldSleeper = false := by decide +kernel
  obtain ⟨s,run,same⟩ := Option.map_eq_some_iff.mp seen
  obtain ⟨free,same⟩ := Prod.mk.inj same
  obtain ⟨sleeps,filled⟩ := Prod.mk.inj same
  refine ⟨s,run,fun none_ => ?_⟩
  have told := none_ 0 2 free filled sleeps
  rw [untold] at told
  contradiction

end IPv4Media.BucketWakeups
