import IPv4Media.Playlist

/-! When the while(1) of mlib_readchn ends. open_next's result is ignored there, so
the loop ends only by a pread that succeeds; with files that answer the same way
throughout the call it then ends within one pread more than the playlist is long. -/
namespace IPv4Media.ReadTermination
open Octets Playlist

variable {φ : Type}

structure Steady (os : Os φ) : Prop where
  opens : ∀ k i p, os.openFile k i p = os.openFile 0 0 p
  reads : ∀ k fd n offset, os.preadFile k fd n offset = os.preadFile 0 fd n offset

def Plays (os : Os φ) (tbfsize : Nat) (p : Path) : Prop :=
  ∃ fd, os.openFile 0 0 p = some fd ∧ (os.preadFile 0 fd tbfsize 0).isSome = true

/- What lets the loop end: the descriptor held so far can be read, or open_next comes to
a file that plays. -/
def Readable (os : Os φ) (tbfsize : Nat) (ch : ChannelContext φ) : Prop :=
  (pread os 0 ch tbfsize).isSome = true ∨ ∃ p ∈ ch.mp3glob, Plays os tbfsize p

theorem preadSteady {os : Os φ} (steady : Steady os) (k : Nat) (ch : ChannelContext φ) (n : Nat) :
    pread os k ch n = pread os 0 ch n := by
  unfold pread
  cases ch.fd with
  | none => rfl
  | some fd => exact steady.reads k fd n ch.offset

theorem fileAtSteady {os : Os φ} (steady : Steady os) (k i pos : Nat) (files : List Path) :
    fileAt os k files i pos = files[pos]?.bind (os.openFile 0 0) := by
  unfold fileAt
  cases files[pos]? with
  | none => rfl
  | some p => exact steady.opens k i p

theorem fileAtMember {os : Os φ} (steady : Steady os) {k i pos fd} {files : List Path}
    (answer : fileAt os k files i pos = some fd) : ∃ p ∈ files, os.openFile 0 0 p = some fd := by
  rw [fileAtSteady steady] at answer
  obtain ⟨p,there,opened⟩ := Option.bind_eq_some_iff.mp answer
  exact ⟨p,List.mem_of_getElem? there,opened⟩

theorem readsNow {os : Os φ} (steady : Steady os) {chnid tbfsize n k} {ch : ChannelContext φ}
    (reads : (pread os 0 ch tbfsize).isSome = true) (more : 0 < n) :
    (readLoop os chnid tbfsize n k ch).isSome = true := by
  obtain ⟨bytes,got⟩ := Option.isSome_iff_exists.mp reads
  rw [← preadSteady steady k] at got
  exact Option.isSome_iff_exists.mpr (readReturns chnid got more)

/- Induction on the distance to a readable file. open_next never passes it, because
it opens. -/
theorem readsAhead {os : Os φ} (steady : Steady os) {chnid tbfsize} (d : Nat) :
    ∀ {n k fd} {ch : ChannelContext φ}, d < ch.mp3glob.length → fileAfter os k ch d = some fd →
      (os.preadFile 0 fd tbfsize 0).isSome = true → d + 2 ≤ n →
      (readLoop os chnid tbfsize n k ch).isSome = true := by
  induction d using Nat.strong_induction_on with
  | _ d ih =>
    intro n k fd ch within there reads more
    obtain ⟨n,rfl⟩ := Nat.exists_eq_succ_of_ne_zero (by omega : n ≠ 0)
    cases now : pread os k ch tbfsize with
    | some bytes =>
      rw [preadSteady steady] at now
      exact readsNow steady (by rw [now]; rfl) (Nat.succ_pos n)
    | none =>
      have again : (readLoop os chnid tbfsize n (k+1) (openNext os chnid k ch).ch).isSome = true := by
        cases openNextCases os chnid k ch with
        | missed silent => exact absurd (there.symm.trans (silent d within)) (Option.some_ne_none fd)
        | found e opened near silent answer ret pos held offset =>
          rcases Nat.lt_trichotomy e d with before | same | past
          · have files := (openNextSame os chnid k ch).mp3glob
            refine @ih (d-e-1) (by omega) n (k+1) fd _ (by rw [files]; omega) ?_ reads (by omega)
            rw [fileAfter,fileAtSteady steady,files,pos,Nat.mod_add_mod]
            rw [fileAfter,fileAtSteady steady] at there
            rw [← there]
            congr 3
            omega
          · subst same
            have sameFd : opened = fd := Option.some.inj (answer.symm.trans there)
            refine readsNow steady ?_ (by omega)
            rw [pread,held,offset,sameFd]
            exact reads
          · exact absurd (there.symm.trans (silent d past)) (Option.some_ne_none fd)
      obtain ⟨rest,looped⟩ := Option.isSome_iff_exists.mp again
      rw [readLoop,now]
      simp [looped]

theorem readsForever {os : Os φ} (steady : Steady os) {chnid tbfsize} {ch : ChannelContext φ}
    (broken : ¬ Readable os tbfsize ch) (n k : Nat) : readLoop os chnid tbfsize n k ch = none := by
  induction n generalizing k ch with
  | zero => rfl
  | succ n ih =>
    have files := (openNextSame os chnid k ch).mp3glob
    have now : pread os k ch tbfsize = none := by
      rw [preadSteady steady]
      exact Option.not_isSome_iff_eq_none.mp (fun reads => broken (.inl reads))
    have still : ¬ Readable os tbfsize (openNext os chnid k ch).ch := by
      rintro (reads | ⟨p,member,fd,opens,reads⟩)
      · cases openNextCases os chnid k ch with
        | missed silent ret pos held offset =>
          rw [pread,held] at reads
          contradiction
        | found d fd within silent answer ret pos held offset =>
          rw [pread,held,offset] at reads
          obtain ⟨p,member,opens⟩ := fileAtMember steady answer
          exact broken (.inr ⟨p,member,fd,opens,reads⟩)
      · rw [files] at member
        exact broken (.inr ⟨p,member,fd,opens,reads⟩)
    rw [readLoop,now]
    simp [ih still]

theorem readableReads {os : Os φ} (steady : Steady os) {chnid tbfsize} {ch : ChannelContext φ}
    (readable : Readable os tbfsize ch) :
    (readLoop os chnid tbfsize (ch.mp3glob.length+1) 0 ch).isSome = true := by
  rcases readable with reads | ⟨p,member,fd,opens,reads⟩
  · exact readsNow steady reads (Nat.succ_pos _)
  · obtain ⟨target,below,there⟩ := List.getElem_of_mem member
    obtain ⟨d,within,lands⟩ := CyclicSearch.distance ch.inside below
    refine @readsAhead φ os steady chnid tbfsize d _ 0 fd ch within ?_ reads (by omega)
    rw [fileAfter,fileAtSteady steady,lands,List.getElem?_eq_getElem below,there]
    exact opens

theorem neverNegative {os : Os φ} {chnid tbfsize iterations} {ch : ChannelContext φ} {read refund}
    (call : mlibReadchn os chnid tbfsize iterations ch = some (read,refund)) : 0 ≤ read.len := by
  obtain ⟨looped,ended,last⟩ := Option.bind_eq_some_iff.mp call
  cases Option.some.inj last
  rw [(readLength (readSound ended)).1]
  exact Int.natCast_nonneg _

/- What the comment above mlib_readchn promises, with the bound on the loop. -/
structure Reports (os : Os φ) (chnid : UInt8) (tbfsize : Nat) (ch : ChannelContext φ) : Prop where
  ends : ∃ iterations ≤ ch.mp3glob.length + 1, (mlibReadchn os chnid tbfsize iterations ch).isSome = true
  negative : (∀ p ∈ ch.mp3glob, ¬ Plays os tbfsize p) →
    ∃ iterations read refund, mlibReadchn os chnid tbfsize iterations ch = some (read,refund) ∧ read.len < 0

/- A failure is never reported: with no file that plays the call loops for ever, or returns
what the descriptor held so far still gives. -/
theorem readchnReports {os : Os φ} (steady : Steady os) (chnid : UInt8) (tbfsize : Nat)
    (ch : ChannelContext φ) : Reports os chnid tbfsize ch ↔ ∃ p ∈ ch.mp3glob, Plays os tbfsize p := by
  constructor
  · intro reports
    by_contra silent
    obtain ⟨iterations,read,refund,call,below⟩ :=
      reports.negative fun p member plays => silent ⟨p,member,plays⟩
    have length := neverNegative call
    omega
  · intro playable
    refine ⟨⟨ch.mp3glob.length+1,Nat.le_refl _,?_⟩,?_⟩
    · obtain ⟨read,looped⟩ :=
        Option.isSome_iff_exists.mp (@readableReads φ os steady chnid tbfsize ch (.inr playable))
      rw [mlibReadchn,looped]
      rfl
    · intro silent
      obtain ⟨p,member,plays⟩ := playable
      exact absurd plays (silent p member)

def samplePlaylist : ChannelContext Nat := ⟨1,[],[[1],[2]],0,some 1,0,0,by decide⟩

def halfBroken : Os Nat :=
  ⟨fun _ _ p => some (p.getD 0 0).toNat,fun _ fd n _ => if fd = 2 then some (List.replicate n 7) else none,by
    intro _ fd n _ bytes got
    split at got <;> try contradiction
    cases Option.some.inj got
    rw [List.length_replicate]⟩

theorem halfBrokenReports : Reports halfBroken 1 4 samplePlaylist :=
  (@readchnReports Nat halfBroken ⟨fun _ _ _ => rfl,fun _ _ _ _ => rfl⟩ 1 4 samplePlaylist).mpr
    ⟨[2],by decide,2,rfl,rfl⟩

/- A directory called x.mp3 opens but cannot be read. -/
def unreadable : Os Nat := ⟨fun _ _ _ => some 3,fun _ _ _ _ => none,by simp⟩

theorem unreadableLoops : (∀ p fd, unreadable.openFile 0 0 p = some fd → unreadable.preadFile 0 fd 4 0 = none) ∧
    (∀ iterations, mlibReadchn unreadable 1 4 iterations samplePlaylist = none) ∧
    ¬ Reports unreadable 1 4 samplePlaylist := by
  have loops : ∀ iterations, mlibReadchn unreadable 1 4 iterations samplePlaylist = none := by
    intro iterations
    have broken : ¬ Readable unreadable 4 samplePlaylist := by
      rintro (reads | ⟨_,_,_,_,reads⟩) <;> contradiction
    rw [mlibReadchn,readsForever ⟨fun _ _ _ => rfl,fun _ _ _ _ => rfl⟩ broken]
    rfl
  refine ⟨fun _ _ _ => rfl,loops,?_⟩
  intro reports
  obtain ⟨iterations,_,ends⟩ := reports.ends
  rw [loops] at ends
  contradiction

end IPv4Media.ReadTermination
