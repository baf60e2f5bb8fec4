import IPv4Media.Library.Execution
import IPv4Media.Library.NumberTable
import IPv4Media.MediaLibrary

/-! The descriptors of the channels (medialib.c), every call of open, pread and close a
step of its own, so that the threads of other channels and the rest of the process run
in between. The kernel hands out the lowest free number and reuses closed ones. -/
namespace IPv4Media.Descriptors
open Octets Proto Playlist MediaLibrary TimerModule NumberTable Execution

inductive Owner
  | channel (chnid : Nat)
  | other
  deriving DecidableEq, Repr

/- Where the thread of a channel is in mlib_readchn. i is open_next's counter, ended
tells the call after an end of file from the one after an error. -/
inductive Thread
  | outside
  | reading (tbfsize : Nat)
  | closing (tbfsize i : Nat) (ended : Bool)
  | opening (tbfsize i : Nat) (ended : Bool)
  deriving DecidableEq, Repr

structure Server where
  lib : MediaLib Nat
  table : List (Option Owner)
  thread : Nat → Thread

inductive Event
  | path2entry (d : MediaDir Nat)
  | fetched (chnid tbfsize : Nat)
  | pread (chnid : Nat) (answer : Option Nat)
  | close (chnid : Nat)
  | openFile (chnid : Nat) (ok : Bool)
  | otherOpen
  | otherClose (fd : Nat)

def start : Server := ⟨unscanned,[],fun _ => .outside⟩

def put (s : Server) (chnid : Nat) (ch : ChannelContext Nat) (thread : Thread) : Server :=
  { s with
    lib := { s.lib with channel := update s.lib.channel chnid (some ch) }
    thread := update s.thread chnid thread }

-- open_next's result is not looked at: after an error the while(1) goes on.
def openNextReturned (tbfsize : Nat) (ended : Bool) : Thread := if ended then .outside else .reading tbfsize

def attempt (s : Server) (chnid : Nat) (ch : ChannelContext Nat) (tbfsize i : Nat) (ended : Bool) : Server :=
  if i < ch.mp3glob.length then put s chnid (advance ch) (.closing tbfsize i ended)
  else put s chnid ch (openNextReturned tbfsize ended)

def closeFd (table : List (Option Owner)) : Option Nat → List (Option Owner)
  | none => table
  | some fd => release table fd

-- A pread of a number that is not open fails.
def readable (s : Server) (ch : ChannelContext Nat) : Bool := (ch.fd.bind (holder s.table)).isSome

/- path2entry opens the first file last, so a context comes with an open file. Ids are
taken to be fresh, as ChannelIds has them while few directories take one. -/
def entered (s : Server) (d : MediaDir Nat) : Option Server := do
  let (res,lib) ← MediaLibrary.path2entry s.lib d
  match res with
  | none => some { s with lib }
  | some me =>
    if me.fd = some (lowestFree s.table) ∧ s.lib.channel me.chnid.toNat = none then
      some {
        lib := register lib me
        table := allot s.table (.channel me.chnid.toNat)
        thread := update s.thread me.chnid.toNat .outside }
    else none

def preadAnswered (s : Server) (chnid : Nat) (ch : ChannelContext Nat) (tbfsize : Nat) : Option Nat → Option Server
  | none => some (attempt s chnid ch tbfsize 0 false)
  | some len =>
    if readable s ch ∧ len ≤ tbfsize then
      if len = 0 then some (attempt s chnid ch tbfsize 0 true)
      else some (put s chnid { ch with offset := ch.offset + len } .outside)
    else none

def opened (s : Server) (chnid : Nat) (ch : ChannelContext Nat) (tbfsize i : Nat) (ended ok : Bool) : Server :=
  if ok then
    { put s chnid { ch with fd := some (lowestFree s.table), offset := 0 } (openNextReturned tbfsize ended) with
      table := allot s.table (.channel chnid) }
  else attempt s chnid { ch with fd := none } tbfsize (i+1) ended

def next (s : Server) : Event → Option Server
  | .path2entry d => entered s d
  | .fetched chnid tbfsize => do
    let ch ← s.lib.channel chnid
    if s.thread chnid = .outside then some (put s chnid ch (.reading tbfsize)) else none
  | .pread chnid answer => do
    let ch ← s.lib.channel chnid
    match s.thread chnid with
    | .reading tbfsize => preadAnswered s chnid ch tbfsize answer
    | _ => none
  | .close chnid => do
    let ch ← s.lib.channel chnid
    match s.thread chnid with
    | .closing tbfsize i ended =>
      some { put s chnid ch (.opening tbfsize i ended) with table := closeFd s.table ch.fd }
    | _ => none
  | .openFile chnid ok => do
    let ch ← s.lib.channel chnid
    match s.thread chnid with
    | .opening tbfsize i ended => some (opened s chnid ch tbfsize i ended ok)
    | _ => none
  | .otherOpen => some { s with table := allot s.table .other }
  | .otherClose fd => if holder s.table fd = some .other then some { s with table := release s.table fd } else none

/- The field keeps the closed number until open's answer is stored in it. -/
def between : Thread → Bool
  | .opening _ _ _ => true
  | _ => false

def held (s : Server) (chnid : Nat) : Option Nat :=
  if between (s.thread chnid) then none else (s.lib.channel chnid).bind fun ch => ch.fd

inductive Effect (s : Server) (e : Event) (t : Server) : Prop where
  | kept (table : t.table = s.table) (same : ∀ c, held t c = held s c)
  | closed (c fd : Nat) (event : e = .close c) (before : held s c = some fd) (table : t.table = release s.table fd)
      (now : held t c = none) (others : ∀ j, j ≠ c → held t j = held s j)
  | opened (c : Nat) (without : held s c = none) (table : t.table = allot s.table (.channel c))
      (now : held t c = some (lowestFree s.table)) (others : ∀ j, j ≠ c → held t j = held s j)
  | otherOpened (table : t.table = allot s.table .other) (same : ∀ c, held t c = held s c)
  | otherClosed (fd : Nat) (theirs : holder s.table fd = some .other) (table : t.table = release s.table fd)
      (same : ∀ c, held t c = held s c)

@[simp] theorem putTable (s : Server) (chnid : Nat) (ch : ChannelContext Nat) (thread : Thread) :
    (put s chnid ch thread).table = s.table := rfl

theorem heldPut (s : Server) (chnid : Nat) (ch : ChannelContext Nat) (thread : Thread) (c : Nat) :
    held (put s chnid ch thread) c =
      if c = chnid then (if between thread then none else ch.fd) else held s c := by
  by_cases same : c = chnid
  · subst same
    simp [held,put]
  · simp only [held,put,updateOther _ _ same,if_neg same]

theorem heldAttempt (s : Server) (chnid : Nat) (ch : ChannelContext Nat) (tbfsize i : Nat) (ended : Bool) (c : Nat) :
    held (attempt s chnid ch tbfsize i ended) c = if c = chnid then ch.fd else held s c := by
  unfold attempt openNextReturned
  split
  · rw [heldPut]
    rfl
  · cases ended <;> exact heldPut _ _ _ _ _

theorem attemptTable (s : Server) (chnid : Nat) (ch : ChannelContext Nat) (tbfsize i : Nat) (ended : Bool) :
    (attempt s chnid ch tbfsize i ended).table = s.table := by
  unfold attempt
  split <;> rfl

theorem enteredEffect {s t : Server} {d : MediaDir Nat} (e : Event) (h : entered s d = some t) : Effect s e t := by
  obtain ⟨⟨res,lib⟩,called,rest⟩ := Option.bind_eq_some_iff.mp h
  cases path2entrySound called with
  | rejected mod invalid unnumbered =>
    cases Option.some.inj rest
    exact .kept rfl fun _ => rfl
  | numbered mod invalid empty =>
    cases Option.some.inj rest
    exact .kept rfl fun _ => rfl
  | made mod me good id files pos offset fd open_ =>
    simp only at rest
    split at rest <;> try contradiction
    rename_i fresh
    cases Option.some.inj rest
    refine .opened me.chnid.toNat (by simp [held,fresh.2]) rfl ?_ ?_
    · simp [held,register,between,fresh.1]
    · intro c other
      simp only [held,register,updateOther _ _ other]

theorem openedEffect {s : Server} {chnid : Nat} {ch : ChannelContext Nat} {tbfsize i : Nat} {ended : Bool} (e : Event)
    (ok : Bool) (pc : s.thread chnid = .opening tbfsize i ended) :
    Effect s e (opened s chnid ch tbfsize i ended ok) := by
  have without : held s chnid = none := by simp [held,pc,between]
  cases ok with
  | true =>
    refine .opened chnid without rfl ?_ ?_
    · cases ended <;> simp [opened,openNextReturned,held,put,between]
    · intro c other
      simp only [opened,if_true,held,put,updateOther _ _ other]
  | false =>
    refine .kept (attemptTable _ _ _ _ _ _) fun c => ?_
    rw [opened,if_neg Bool.false_ne_true,heldAttempt]
    by_cases same : c = chnid
    · rw [if_pos same,same,without]
    · rw [if_neg same]

theorem closedEffect {s : Server} {chnid : Nat} {ch : ChannelContext Nat} {tbfsize i : Nat} {ended : Bool}
    (found : s.lib.channel chnid = some ch) (pc : s.thread chnid = .closing tbfsize i ended) :
    Effect s (.close chnid) { put s chnid ch (.opening tbfsize i ended) with table := closeFd s.table ch.fd } := by
  have before : held s chnid = ch.fd := by simp [held,pc,between,found]
  have now := heldPut s chnid ch (.opening tbfsize i ended)
  cases open_ : ch.fd with
  | none =>
    refine .kept rfl fun c => (now c).trans ?_
    by_cases same : c = chnid
    · rw [if_pos same,same,before,open_]
      rfl
    · rw [if_neg same]
  | some fd =>
    refine .closed chnid fd rfl (before.trans open_) rfl ((now chnid).trans (if_pos rfl)) fun c other => ?_
    exact (now c).trans (if_neg other)

theorem preadEffect {s t : Server} {chnid : Nat} {ch : ChannelContext Nat} {tbfsize : Nat} {answer : Option Nat}
    (e : Event) (found : s.lib.channel chnid = some ch) (pc : s.thread chnid = .reading tbfsize)
    (h : preadAnswered s chnid ch tbfsize answer = some t) : Effect s e t := by
  have before : held s chnid = ch.fd := by simp [held,pc,between,found]
  have still : ∀ c, (if c = chnid then ch.fd else held s c) = held s c := by
    intro c
    by_cases same : c = chnid
    · rw [if_pos same,same,before]
    · rw [if_neg same]
  unfold preadAnswered at h
  split at h
  · cases Option.some.inj h
    exact .kept (attemptTable _ _ _ _ _ _) fun c => (heldAttempt _ _ _ _ _ _ c).trans (still c)
  · split at h <;> try contradiction
    split at h <;> cases Option.some.inj h
    · exact .kept (attemptTable _ _ _ _ _ _) fun c => (heldAttempt _ _ _ _ _ _ c).trans (still c)
    · exact .kept rfl fun c => (heldPut _ _ _ _ c).trans (still c)

theorem fetchedEffect {s : Server} {chnid : Nat} {ch : ChannelContext Nat} (tbfsize : Nat) (e : Event)
    (found : s.lib.channel chnid = some ch) (pc : s.thread chnid = .outside) :
    Effect s e (put s chnid ch (.reading tbfsize)) := by
  refine .kept rfl fun c => ?_
  rw [heldPut]
  by_cases same : c = chnid
  · rw [if_pos same,same]
    simp [held,pc,between,found]
  · rw [if_neg same]

theorem nextEffect {s t : Server} {e : Event} (h : next s e = some t) : Effect s e t := by
  cases e with
  | path2entry d => exact enteredEffect _ h
  | fetched chnid tbfsize =>
    obtain ⟨ch,found,h⟩ := Option.bind_eq_some_iff.mp h
    split at h <;> try contradiction
    rename_i pc
    cases Option.some.inj h
    exact fetchedEffect tbfsize _ found pc
  | pread chnid answer =>
    obtain ⟨ch,found,h⟩ := Option.bind_eq_some_iff.mp h
    split at h <;> try contradiction
    rename_i pc
    exact preadEffect _ found pc h
  | close chnid =>
    obtain ⟨ch,found,h⟩ := Option.bind_eq_some_iff.mp h
    split at h <;> try contradiction
    rename_i pc
    cases Option.some.inj h
    exact closedEffect found pc
  | openFile chnid ok =>
    obtain ⟨ch,found,h⟩ := Option.bind_eq_some_iff.mp h
    split at h <;> try contradiction
    rename_i pc
    cases Option.some.inj h
    exact openedEffect _ ok pc
  | otherOpen =>
    cases Option.some.inj h
    exact .otherOpened rfl fun _ => rfl
  | otherClose fd =>
    simp only [next] at h
    split at h <;> try contradiction
    rename_i theirs
    cases Option.some.inj h
    exact .otherClosed fd theirs rfl fun _ => rfl

def Agreed (s : Server) : Prop := Exclusive Owner.channel s.table (held s)

theorem channelInjective : Function.Injective Owner.channel := fun _ _ same => Owner.channel.inj same

theorem agreedStep {s t : Server} {e : Event} (agreed : Agreed s) (effect : Effect s e t) : Agreed t := by
  unfold Agreed
  cases effect with
  | kept table same =>
    rw [table]
    exact exclusiveSame agreed same
  | closed c fd event before table now others =>
    rw [table]
    exact exclusiveRelease channelInjective agreed before now others
  | opened c without table now others =>
    rw [table]
    exact exclusiveAllot channelInjective agreed without now others
  | otherOpened table same =>
    rw [table]
    exact exclusiveSame (exclusiveAllotOther agreed fun _ => Owner.noConfusion) same
  | otherClosed fd theirs table same =>
    rw [table]
    exact exclusiveSame (exclusiveReleaseOther agreed (fun _ => Owner.noConfusion) theirs) same

theorem agreedRun {events : List Event} {s : Server} (run : exec next start events = some s) : Agreed s := by
  refine invariant (I := Agreed) ?_ (fun s e t agreed step => agreedStep agreed (nextEffect step)) run
  intro c n
  simp [start,holder,held,unscanned,between]

theorem leavesByClose {s t : Server} {e : Event} {c fd : Nat} (agreed : Agreed s) (effect : Effect s e t)
    (mine : holder s.table fd = some (.channel c)) (gone : holder t.table fd ≠ some (.channel c)) :
    e = .close c := by
  have knows := (agreed c fd).mp mine
  have after : held t c ≠ some fd := fun still => gone ((agreedStep agreed effect c fd).mpr still)
  cases effect with
  | kept table same => exact absurd ((same c).trans knows) after
  | otherOpened table same => exact absurd ((same c).trans knows) after
  | otherClosed fd theirs table same => exact absurd ((same c).trans knows) after
  | closed j n event before table now others =>
    by_cases mineToo : c = j
    · rw [event,mineToo]
    · exact absurd ((others c mineToo).trans knows) after
  | opened j without table now others =>
    by_cases mineToo : c = j
    · rw [mineToo,without] at knows
      contradiction
    · exact absurd ((others c mineToo).trans knows) after

structure OwnDescriptors (s : Server) : Prop where
  own : ∀ c ch fd, s.lib.channel c = some ch → between (s.thread c) = false → ch.fd = some fd →
    holder s.table fd = some (.channel c)
  apart : ∀ c d fd, held s c = some fd → held s d = some fd → c = d
  closes : ∀ c ch fd t, next s (.close c) = some t → s.lib.channel c = some ch → ch.fd = some fd →
    holder s.table fd = some (.channel c)
  known : ∀ c fd, holder s.table fd = some (.channel c) →
    between (s.thread c) = false ∧ ∃ ch, s.lib.channel c = some ch ∧ ch.fd = some fd
  lost : ∀ c fd e t, next s e = some t → holder s.table fd = some (.channel c) →
    holder t.table fd = some (.channel c) ∨ e = .close c

theorem heldField {s : Server} {c fd : Nat} {ch : ChannelContext Nat} (found : s.lib.channel c = some ch)
    (settled : between (s.thread c) = false) (field : ch.fd = some fd) : held s c = some fd := by
  simp [held,settled,found,field]

theorem closingSettled {s t : Server} {c : Nat} (step : next s (.close c) = some t) :
    between (s.thread c) = false := by
  obtain ⟨ch,found,step⟩ := Option.bind_eq_some_iff.mp step
  split at step <;> try contradiction
  rename_i pc
  rw [pc]
  rfl

theorem ownDescriptors {events : List Event} {s : Server} (run : exec next start events = some s) :
    OwnDescriptors s := by
  have agreed := agreedRun run
  constructor
  · intro c ch fd found settled field
    exact (agreed c fd).mpr (heldField found settled field)
  · intro c d fd one two
    have mine := (agreed c fd).mpr one
    rw [(agreed d fd).mpr two] at mine
    exact (channelInjective (Option.some.inj mine)).symm
  · intro c ch fd t step found field
    exact (agreed c fd).mpr (heldField found (closingSettled step) field)
  · intro c fd mine
    have knows := (agreed c fd).mp mine
    unfold held at knows
    split at knows <;> try contradiction
    rename_i settled
    obtain ⟨ch,found,field⟩ := Option.bind_eq_some_iff.mp knows
    exact ⟨Bool.eq_false_iff.mpr settled,ch,found,field⟩
  · intro c fd e t step mine
    by_cases still : holder t.table fd = some (.channel c)
    · exact .inl still
    · exact .inr (leavesByClose agreed (nextEffect step) mine still)

def oneFile (fd : Nat) : MediaDir Nat := ⟨some [65],true,⟨true,true,true⟩,[[1]],some fd⟩

/- Two channels end their files. Channel 2 reopens before channel 1 does. -/
def reopening : List Event :=
  [.path2entry (oneFile 0),.path2entry (oneFile 1),.fetched 1 8,.fetched 2 8,.pread 1 (some 0),.pread 2 (some 0),
    .close 1,.close 2,.openFile 2 true]

theorem reopeningOwn : ∃ s, exec next start (reopening ++ [.openFile 1 true]) = some s ∧ OwnDescriptors s ∧
    s.table = [some (.channel 2),some (.channel 1)] :=
  ⟨_,rfl,@ownDescriptors (reopening ++ [.openFile 1 true]) _ rfl,rfl⟩

theorem staleNumber : ∃ s one two, exec next start reopening = some s ∧ s.lib.channel 1 = some one ∧
    s.lib.channel 2 = some two ∧ one.fd = some 0 ∧ two.fd = some 0 ∧
    holder s.table 0 = some (.channel 2) :=
  ⟨_,_,_,rfl,rfl,rfl,rfl,rfl,rfl⟩

end IPv4Media.Descriptors
