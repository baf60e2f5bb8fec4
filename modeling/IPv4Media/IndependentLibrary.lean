import IPv4Media.Library.Execution
import IPv4Media.MediaLibrary

/-! The media library with one bucket a channel (medialibindependenttoken.c): path2entry
and mlib_getchnlist once more, mlib_get_channel_stats and mlib_cleanup. channel[] is
static storage: all zero at first, and a scan clears nothing of it but chnid. A
descriptor is its number here, and a copy past channel[] has no result. -/
namespace IPv4Media.IndependentLibrary
open Octets Proto TimerModule Execution
open Playlist (Path)
open MediaLibrary (lineBufSize fgets strdup strdupNulFree MlibListentry MediaDir)

def perChannelRate : Int := 320 * 1024 / 8 / 8
def perChannelBurst : Int := perChannelRate * 5

/- struct channel_context_st as memory, a null pointer being none. -/
structure ChannelContext where
  chnid : UInt8
  desc : Option Bytes
  mp3glob : List Path
  pos : Int
  fd : Int
  offset : Int
  tbf : Option Nat
  deriving DecidableEq, Repr

def zeroed : ChannelContext := ⟨0,none,[],0,0,0,none⟩

/- registered are the ids of the last scan, written the indices of all copies so far. -/
structure MediaLib where
  currId : UInt8
  channel : Nat → ChannelContext
  totalChannels : Nat
  mod : Module
  registered : List UInt8
  written : List Nat

def processStart : MediaLib := ⟨UInt8.ofNat minchnid,fun _ => zeroed,0,unloaded,[],[]⟩

/- The directory's context or NULL; none when mytbf_init ends the process. -/
def path2entry (lib : MediaLib) (d : MediaDir Nat) : Option (Option ChannelContext × MediaLib) :=
  match d.descTxt.bind (fgets lineBufSize) with
  | none => some (none,lib)
  | some linebuf =>
    if d.memory then do
      let (tbf,mod) ← mytbfInit lib.mod d.init perChannelRate perChannelBurst
      match tbf with
      | none => some (none,{ lib with mod })
      | some tbf =>
        match d.mp3 with
        | [] => do
          let mod ← mytbfDestroy mod tbf
          some (none,{ lib with mod, currId := lib.currId + 1 })
        | first :: rest =>
          match d.opened with
          | none => do
            let mod ← mytbfDestroy mod tbf
            some (none,{ lib with mod })
          | some fd =>
            let me : ChannelContext := ⟨lib.currId,some (strdup linebuf),first :: rest,0,fd,0,some tbf⟩
            some (some me,{ lib with mod, currId := lib.currId + 1 })
    else some (none,lib)

def register (lib : MediaLib) (res : ChannelContext) : Option MediaLib :=
  if res.chnid.toNat ≤ maxchnid then
    some { lib with
      channel := update lib.channel res.chnid.toNat res
      registered := lib.registered ++ [res.chnid]
      written := lib.written ++ [res.chnid.toNat] }
  else none

def listentry (res : ChannelContext) : MlibListentry :=
  ⟨res.chnid,strdup (res.desc.getD []),strdupNulFree _⟩

def scan : MediaLib → List (MediaDir Nat) → Option (List MlibListentry × MediaLib)
  | lib, [] => some ([],lib)
  | lib, d :: dirs => do
    let (res,lib) ← path2entry lib d
    match res with
    | none => scan lib dirs
    | some res => do
      let lib ← register lib res
      let (entries,lib) ← scan lib dirs
      some (listentry res :: entries,lib)

-- chnid_t is an unsigned octet.
def unmark (ch : ChannelContext) : ChannelContext := { ch with chnid := UInt8.ofInt (-1) }

def cleared (lib : MediaLib) : MediaLib := { lib with
  channel := fun i => if i ≤ maxchnid then unmark (lib.channel i) else lib.channel i
  registered := [] }

/- globbed is none when glob fails. -/
def mlibGetchnlist (lib : MediaLib) (globbed : Option (List (MediaDir Nat))) :
    Option (Int × List MlibListentry × MediaLib) :=
  match globbed with
  | none => some (-1,[],cleared lib)
  | some dirs => do
    let (entries,lib) ← scan (cleared lib) dirs
    some (0,entries,{ lib with totalChannels := entries.length })

-- The comparison promotes chnid to int.
def unused (ch : ChannelContext) : Bool := (ch.chnid.toNat : Int) == -1

def statsRejects (lib : MediaLib) (chnid : UInt8) : Bool :=
  decide ((chnid.toNat : Int) < 0) || decide (maxchnid < chnid.toNat) || unused (lib.channel chnid.toNat)

/- The warning, or the argument of mytbf_checktoken and what the last line prints; no
tokens when the pointer leads to no bucket. -/
inductive StatsCall where
  | invalid
  | checked (tbf : Option Nat) (tokens : Option Int) (pos offset : Int)
  deriving DecidableEq, Repr

def mlibGetChannelStats (lib : MediaLib) (chnid : UInt8) : StatsCall :=
  if statsRejects lib chnid then .invalid
  else
    let ch := lib.channel chnid.toNat
    .checked ch.tbf (ch.tbf.bind fun tbf => (lib.mod.bucket tbf).map TokenBucket.checktoken) ch.pos ch.offset

inductive Release where
  | close (fd : Int)
  | destroy (tbf : Nat)
  | free (desc : Bytes)
  | globfree (mp3glob : List Path)
  deriving DecidableEq, Repr

def openFd (ch : ChannelContext) : Option Int := if 0 ≤ ch.fd then some ch.fd else none

def releases (ch : ChannelContext) : List Release :=
  if unused ch then []
  else (openFd ch).toList.map .close ++ ch.tbf.toList.map .destroy ++ ch.desc.toList.map .free ++
    [.globfree ch.mp3glob]

def mlibCleanup (lib : MediaLib) : List Release :=
  (List.range (maxchnid + 1)).flatMap fun i => releases (lib.channel i)

/- A scan, or an mlib_readchn: what it asks of the bucket shows that the pointer leads
somewhere, and of the context it writes the three fields of the file being played. -/
inductive Event where
  | scan (globbed : Option (List (MediaDir Nat)))
  | readchn (chnid : UInt8) (pos fd offset : Int)

def next (lib : MediaLib) : Event → Option MediaLib
  | .scan globbed => (mlibGetchnlist lib globbed).map fun r => r.2.2
  | .readchn chnid pos fd offset =>
    let ch := lib.channel chnid.toNat
    if ch.tbf.isSome then
      some { lib with channel := update lib.channel chnid.toNat { ch with pos, fd, offset } }
    else none

theorem neverUnused (ch : ChannelContext) : unused ch = false := by
  have natural : 0 ≤ (ch.chnid.toNat : Int) := Int.natCast_nonneg _
  simp only [unused,beq_eq_false_iff_ne,ne_eq]
  omega

theorem statsRejectsIff (lib : MediaLib) (chnid : UInt8) : statsRejects lib chnid = true ↔ maxchnid < chnid.toNat := by
  have natural : ¬ (chnid.toNat : Int) < 0 := by omega
  simp [statsRejects,neverUnused,natural]

theorem releasesAll (ch : ChannelContext) :
    releases ch = (openFd ch).toList.map .close ++ ch.tbf.toList.map .destroy ++ ch.desc.toList.map .free ++
      [.globfree ch.mp3glob] := by
  simp [releases,neverUnused]

def closed (calls : List Release) : List Int :=
  calls.filterMap fun | .close fd => some fd | _ => none

def destroyed (calls : List Release) : List Nat :=
  calls.filterMap fun | .destroy tbf => some tbf | _ => none

def freed (calls : List Release) : List Bytes :=
  calls.filterMap fun | .free desc => some desc | _ => none

theorem cleanupShows {α : Type} (show_ : Release → Option α) (lib : MediaLib) :
    (mlibCleanup lib).filterMap show_ =
      (List.range (maxchnid + 1)).flatMap fun i => (releases (lib.channel i)).filterMap show_ :=
  List.filterMap_flatMap

theorem closedCleanup (lib : MediaLib) :
    closed (mlibCleanup lib) = (List.range (maxchnid + 1)).flatMap fun i => (openFd (lib.channel i)).toList := by
  rw [closed,cleanupShows]
  simp [releasesAll,List.filterMap_map]

theorem destroyedCleanup (lib : MediaLib) :
    destroyed (mlibCleanup lib) = (List.range (maxchnid + 1)).flatMap fun i => (lib.channel i).tbf.toList := by
  rw [destroyed,cleanupShows]
  simp [releasesAll,List.filterMap_map]

def slots (lib : MediaLib) : List Nat :=
  (List.range (maxchnid + 1)).filter fun i => decide (UInt8.ofNat i ∈ lib.registered)

def StatsRejectUnused (lib : MediaLib) : Prop :=
  ∀ chnid : UInt8, statsRejects lib chnid = true ↔ chnid ∉ lib.registered

def StatsBucketed (lib : MediaLib) : Prop :=
  ∀ chnid tokens pos offset, mlibGetChannelStats lib chnid ≠ .checked none tokens pos offset

structure CleansRegistered (lib : MediaLib) : Prop where
  closed : (closed (mlibCleanup lib)).Perm ((slots lib).flatMap fun i => (openFd (lib.channel i)).toList)
  destroyed : (destroyed (mlibCleanup lib)).Perm ((slots lib).flatMap fun i => (lib.channel i).tbf.toList)
  freed : (freed (mlibCleanup lib)).Perm ((slots lib).flatMap fun i => (lib.channel i).desc.toList)

theorem outsideNil {α β : Type} {l : List α} {p : α → Bool} {g : α → List β}
    (same : (l.flatMap g).Perm ((l.filter p).flatMap g)) {a : α} (member : a ∈ l) (outside : p a = false) :
    g a = [] := by
  have parts := (List.filter_append_perm p l).flatMap_right g
  have lengths := parts.length_eq
  rw [List.flatMap_append,List.length_append,same.length_eq] at lengths
  have rest : (l.filter fun a => !p a).flatMap g = [] := List.eq_nil_of_length_eq_zero (by omega)
  exact List.flatMap_eq_nil_iff.mp rest a (List.mem_filter.mpr ⟨member,by rw [outside]; rfl⟩)

/- A slot no copy went to is as the process found it but for chnid, and one that was
written keeps its bucket. -/
structure Slots (lib : MediaLib) : Prop where
  untouched : ∀ i, i ∉ lib.written → lib.channel i = { zeroed with chnid := (lib.channel i).chnid }
  bucketed : ∀ i ∈ lib.written, (lib.channel i).tbf.isSome = true

theorem slotsStart : Slots processStart := ⟨fun _ _ => rfl,by simp [processStart]⟩

theorem slotsCleared {lib : MediaLib} (slots : Slots lib) : Slots (cleared lib) := by
  constructor
  · intro i fresh
    have before := slots.untouched i fresh
    simp only [cleared]
    split
    · rw [unmark,before]
    · exact before
  · intro i member
    have before := slots.bucketed i member
    simp only [cleared]
    split
    · exact before
    · exact before

structure Entry (lib : MediaLib) (res : Option ChannelContext) (lib' : MediaLib) : Prop where
  channel : lib'.channel = lib.channel
  registered : lib'.registered = lib.registered
  written : lib'.written = lib.written
  bucket : ∀ me, res = some me → me.tbf.isSome = true

theorem entryRejected (lib : MediaLib) (mod : Module) (currId : UInt8) :
    Entry lib none { lib with mod, currId } := ⟨rfl,rfl,rfl,by simp⟩

theorem path2entrySound {lib lib' : MediaLib} {d res} (h : path2entry lib d = some (res,lib')) :
    Entry lib res lib' := by
  unfold path2entry at h
  split at h
  · cases Option.some.inj h
    exact entryRejected lib lib.mod lib.currId
  · split at h
    · obtain ⟨⟨tbf,mod⟩,_,h⟩ := Option.bind_eq_some_iff.mp h
      cases tbf with
      | none =>
        cases Option.some.inj h
        exact entryRejected lib mod lib.currId
      | some tbf =>
        simp only at h
        split at h
        · obtain ⟨mod,_,h⟩ := Option.bind_eq_some_iff.mp h
          cases Option.some.inj h
          exact entryRejected lib mod (lib.currId + 1)
        · split at h
          · obtain ⟨mod,_,h⟩ := Option.bind_eq_some_iff.mp h
            cases Option.some.inj h
            exact entryRejected lib mod lib.currId
          · cases Option.some.inj h
            refine ⟨rfl,rfl,rfl,?_⟩
            rintro me ⟨⟩
            rfl
    · cases Option.some.inj h
      exact entryRejected lib lib.mod lib.currId

theorem slotsEntry {lib lib' : MediaLib} {res} (slots : Slots lib) (entry : Entry lib res lib') : Slots lib' := by
  constructor
  · rw [entry.channel,entry.written]
    exact slots.untouched
  · rw [entry.channel,entry.written]
    exact slots.bucketed

theorem registerSound {lib lib' : MediaLib} {res} (h : register lib res = some lib') :
    res.chnid.toNat ≤ maxchnid ∧ lib' = { lib with
      channel := update lib.channel res.chnid.toNat res
      registered := lib.registered ++ [res.chnid]
      written := lib.written ++ [res.chnid.toNat] } := by
  unfold register at h
  split at h <;> try contradiction
  exact ⟨by assumption,(Option.some.inj h).symm⟩

theorem slotsRegister {lib lib' : MediaLib} {res} (slots : Slots lib) (h : register lib res = some lib')
    (bucket : res.tbf.isSome = true) : Slots lib' := by
  obtain ⟨_,rfl⟩ := registerSound h
  constructor
  · intro i fresh
    simp only [List.mem_append,List.mem_singleton,not_or] at fresh
    simp only [updateOther _ _ fresh.2]
    exact slots.untouched i fresh.1
  · intro i member
    by_cases same : i = res.chnid.toNat
    · subst same
      simp only [updateSame,bucket]
    · simp only [List.mem_append,List.mem_singleton,same,or_false] at member
      simp only [updateOther _ _ same]
      exact slots.bucketed i member

theorem slotsScan {dirs : List (MediaDir Nat)} {lib lib' : MediaLib} {entries} (slots : Slots lib)
    (h : scan lib dirs = some (entries,lib')) : Slots lib' := by
  induction dirs generalizing lib entries with
  | nil => cases Option.some.inj h; exact slots
  | cons d dirs ih =>
    simp only [scan,Option.bind_eq_bind] at h
    obtain ⟨⟨res,middle⟩,first,h⟩ := Option.bind_eq_some_iff.mp h
    have entry := path2entrySound first
    have kept := slotsEntry slots entry
    cases res with
    | none => exact ih kept h
    | some res =>
      obtain ⟨copied,copy,h⟩ := Option.bind_eq_some_iff.mp h
      obtain ⟨⟨rest,last⟩,later,h⟩ := Option.bind_eq_some_iff.mp h
      cases Option.some.inj h
      exact ih (slotsRegister kept copy (entry.bucket res rfl)) later

theorem slotsNext {lib lib' : MediaLib} {e : Event} (slots : Slots lib) (step : next lib e = some lib') :
    Slots lib' := by
  cases e with
  | scan globbed =>
    obtain ⟨⟨ret,entries,found⟩,call,rfl⟩ := Option.map_eq_some_iff.mp step
    cases globbed with
    | none => cases Option.some.inj call; exact slotsCleared slots
    | some dirs =>
      obtain ⟨⟨list,last⟩,scanned,end_⟩ := Option.bind_eq_some_iff.mp call
      cases Option.some.inj end_
      obtain ⟨untouched,bucketed⟩ := slotsScan (slotsCleared slots) scanned
      exact ⟨untouched,bucketed⟩
  | readchn chnid pos fd offset =>
    simp only [next] at step
    split at step <;> try contradiction
    rename_i bucket
    cases Option.some.inj step
    constructor
    · intro i fresh
      have other : i ≠ chnid.toNat := by
        rintro rfl
        rw [slots.untouched _ fresh] at bucket
        contradiction
      simp only [updateOther _ _ other]
      exact slots.untouched i fresh
    · intro i member
      by_cases same : i = chnid.toNat
      · subst same
        simp only [updateSame,bucket]
      · simp only [updateOther _ _ same]
        exact slots.bucketed i member

theorem slotsRun {events : List Event} {lib : MediaLib} (run : exec next processStart events = some lib) : Slots lib :=
  invariant slotsStart (fun _ _ _ slots step => slotsNext slots step) run

theorem statsBucketedIff {lib : MediaLib} (slots : Slots lib) :
    StatsBucketed lib ↔ ∀ i ≤ maxchnid, i ∈ lib.written := by
  have passes : ∀ chnid : UInt8, chnid.toNat ≤ maxchnid → statsRejects lib chnid = false := by
    intro chnid low
    rw [Bool.eq_false_iff,ne_eq,statsRejectsIff]
    omega
  constructor
  · intro bucketed i low
    by_contra fresh
    have small : i < 2^8 := by simp only [maxchnid,minchnid,channum] at low; omega
    have index : (UInt8.ofNat i).toNat = i := UInt8.toNat_ofNat_of_lt' small
    apply bucketed (UInt8.ofNat i) none 0 0
    rw [mlibGetChannelStats,passes _ (by rw [index]; exact low),index,slots.untouched i fresh]
    rfl
  · intro all chnid tokens pos offset call
    rw [mlibGetChannelStats] at call
    split at call <;> try contradiction
    rename_i accepted
    have low : chnid.toNat ≤ maxchnid := by
      rw [statsRejectsIff] at accepted
      omega
    have bucket := slots.bucketed _ (all _ low)
    injection call with null
    rw [null] at bucket
    contradiction

/- Cleanup finds something to release in every slot up to MAXCHNID: descriptor 0 in one
that was never written, a bucket in one that an earlier scan left. -/
theorem strayReleased {lib : MediaLib} (table : Slots lib) {i : Nat} (low : i ≤ maxchnid)
    (stray : UInt8.ofNat i ∉ lib.registered) : ¬ CleansRegistered lib := by
  intro cleans
  have member : i ∈ List.range (maxchnid + 1) := List.mem_range.mpr (by omega)
  have outside : decide (UInt8.ofNat i ∈ lib.registered) = false := decide_eq_false stray
  by_cases written : i ∈ lib.written
  · have same := cleans.destroyed
    rw [destroyedCleanup,slots] at same
    have nothing := outsideNil same member outside
    have bucket := table.bucketed i written
    rw [Option.toList_eq_nil_iff] at nothing
    rw [nothing] at bucket
    contradiction
  · have same := cleans.closed
    rw [closedCleanup,slots] at same
    have nothing := outsideNil same member outside
    rw [table.untouched i written] at nothing
    contradiction

/- No scan of ids from MINCHNID up is followed by the three checks that its mark stands
for: id 0 is never one of them and always accepted, and its slot is cleaned up. -/
theorem unusedUnrecognised {events : List Event} {lib : MediaLib} (run : exec next processStart events = some lib)
    (ranged : ∀ chnid ∈ lib.registered, minchnid ≤ chnid.toNat ∧ chnid.toNat ≤ maxchnid) :
    ¬ StatsRejectUnused lib ∧ (StatsBucketed lib ↔ ∀ i ≤ maxchnid, i ∈ lib.written) ∧ ¬ CleansRegistered lib := by
  have zeroOutside : (0 : UInt8) ∉ lib.registered := by
    intro member
    have low := (ranged 0 member).1
    contradiction
  have table := slotsRun run
  refine ⟨?_,statsBucketedIff table,strayReleased table (Nat.zero_le _) zeroOutside⟩
  intro rejects
  have past := (statsRejectsIff lib 0).mp ((rejects 0).mpr zeroOutside)
  contradiction

def oneChannel : List Event :=
  [.scan (some [⟨some [97,98],true,⟨true,true,true⟩,[[49]],some 3⟩])]

theorem oneChannelRuns : (exec next processStart oneChannel).map
    (fun lib => (lib.registered,mlibGetChannelStats lib 1,mlibGetChannelStats lib 0,closed (mlibCleanup lib))) =
      some ([1],.checked (some 0) (some 0) 0 0,.checked none none 0 0,0 :: 3 :: List.replicate 199 0) := by
  decide +kernel

/- Channel 0 hands NULL to mytbf_checktoken, and cleanup closes standard input two
hundred times beside the one file that is open. -/
theorem standardInputClosed : ∃ lib, exec next processStart oneChannel = some lib ∧ lib.registered = [1] ∧
    mlibGetChannelStats lib 0 = .checked none none 0 0 ∧
    closed (mlibCleanup lib) = 0 :: 3 :: List.replicate 199 0 ∧
    ¬ StatsRejectUnused lib ∧ ¬ StatsBucketed lib ∧ ¬ CleansRegistered lib := by
  obtain ⟨lib,run,seen⟩ := Option.map_eq_some_iff.mp oneChannelRuns
  simp only [Prod.mk.injEq] at seen
  obtain ⟨registered,_,null,closes⟩ := seen
  have outside : (0 : UInt8) ∉ lib.registered := by rw [registered]; decide
  refine ⟨lib,run,registered,null,closes,?_,?_,?_⟩
  · intro rejects
    have past := (statsRejectsIff lib 0).mp ((rejects 0).mpr outside)
    contradiction
  · intro bucketed
    exact bucketed 0 none 0 0 null
  · exact strayReleased (slotsRun run) (Nat.zero_le _) outside

theorem oneChannelUnrecognised : ∃ lib, exec next processStart oneChannel = some lib ∧ lib.registered = [1] ∧
    ¬ StatsRejectUnused lib ∧ (StatsBucketed lib ↔ ∀ i ≤ maxchnid, i ∈ lib.written) ∧ ¬ CleansRegistered lib := by
  obtain ⟨lib,run,seen⟩ := Option.map_eq_some_iff.mp oneChannelRuns
  simp only [Prod.mk.injEq] at seen
  have registered := seen.1
  have ranged : ∀ chnid ∈ lib.registered, minchnid ≤ chnid.toNat ∧ chnid.toNat ≤ maxchnid := by
    intro chnid member
    rw [registered,List.mem_singleton] at member
    rw [member]
    decide
  exact ⟨lib,run,registered,unusedUnrecognised run ranged⟩

end IPv4Media.IndependentLibrary
