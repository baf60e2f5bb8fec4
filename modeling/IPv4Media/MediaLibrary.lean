import IPv4Media.Playlist
import IPv4Media.Proto
import IPv4Media.TimerModule
import Mathlib.Data.List.TakeWhile

/-! The scan of the media directory (medialib.c): path2entry on each subdirectory,
with its static id counter and the bucket it registers on the way, and
mlib_getchnlist, which copies each context into channel[]. The index of a copy is
not checked there, so channel[] is a function on all indices and the writes are kept.
Paths are taken to fit PATHSIZE. -/
namespace IPv4Media.MediaLibrary
open Octets Proto Playlist TimerModule

def lineBufSize : Nat := 1024

-- MP3_BITRATE / 8 and MP3_BITRATE / 8 * 5, the macro without parentheses.
def tbfCps : Int := 320 * 1024 / 8
def tbfBurst : Int := 320 * 1024 / 8 * 5

def throughNewline : Bytes → Bytes
  | [] => []
  | b :: bs => if b = 10 then [b] else b :: throughNewline bs

def fgets (size : Nat) (text : Bytes) : Option Bytes :=
  if text = [] then none else some ((throughNewline text).take (size - 1))

def strdup (s : Bytes) : Bytes := s.takeWhile fun b => b ≠ 0

theorem strdupNulFree (s : Bytes) : (0 : UInt8) ∉ strdup s := by
  intro member
  have nonzero := List.mem_takeWhile_imp member
  simp at nonzero

/- struct mlib_listentry_st. desc is the string without its terminator. -/
structure MlibListentry where
  chnid : UInt8
  desc : Bytes
  nulFree : (0 : UInt8) ∉ desc
  deriving DecidableEq, Repr

/- One subdirectory as path2entry finds it, and what memory and threads answer there. -/
structure MediaDir (φ : Type) where
  descTxt : Option Bytes
  memory : Bool
  init : InitEnv
  mp3 : List Path
  opened : Option φ

structure MediaLib (φ : Type) where
  currId : UInt8
  channel : Nat → Option (ChannelContext φ)
  written : List Nat
  mod : Module

variable {φ : Type}

def unscanned : MediaLib φ := ⟨UInt8.ofNat minchnid,fun _ => none,[],unloaded⟩

/- The directory's context or NULL; none when mytbf_init ends the process. -/
def path2entry (lib : MediaLib φ) (d : MediaDir φ) : Option (Option (ChannelContext φ) × MediaLib φ) :=
  match d.descTxt.bind (fgets lineBufSize) with
  | none => some (none,lib)
  | some linebuf =>
    if d.memory then do
      let (tbf,mod) ← mytbfInit lib.mod d.init tbfCps tbfBurst
      match tbf with
      | none => some (none,{ lib with mod })
      | some tbf =>
        match d.mp3 with
        | [] => some (none,{ lib with mod, currId := lib.currId + 1 })
        | first :: rest =>
          match d.opened with
          | none => some (none,{ lib with mod })
          | some fd =>
            let me : ChannelContext φ := ⟨lib.currId,strdup linebuf,first :: rest,0,some fd,0,tbf,Nat.succ_pos _⟩
            some (some me,{ lib with mod, currId := lib.currId + 1 })
    else some (none,lib)

/- entries is what the caller gets, owners the contexts they were made from. -/
structure Scanned (φ : Type) where
  entries : List MlibListentry
  owners : List (ChannelContext φ)
  lib : MediaLib φ

def register (lib : MediaLib φ) (res : ChannelContext φ) : MediaLib φ :=
  { lib with
    channel := update lib.channel res.chnid.toNat (some res)
    written := lib.written ++ [res.chnid.toNat] }

def scan : MediaLib φ → List (MediaDir φ) → Option (Scanned φ)
  | lib, [] => some ⟨[],[],lib⟩
  | lib, d :: dirs => do
    let (res,lib) ← path2entry lib d
    match res with
    | none => scan lib dirs
    | some res => do
      let rest ← scan (register lib res) dirs
      some { rest with
        entries := ⟨res.chnid,strdup res.desc,strdupNulFree _⟩ :: rest.entries
        owners := res :: rest.owners }

/- globbed is none when glob fails. The written indices are those of this call. -/
def mlibGetchnlist (lib : MediaLib φ) (globbed : Option (List (MediaDir φ))) : Option (Int × Scanned φ) :=
  let cleared := { lib with channel := fun _ => none, written := [] }
  match globbed with
  | none => some (-1,⟨[],[],cleared⟩)
  | some dirs => do
    let scanned ← scan cleared dirs
    some (0,scanned)

def described (d : MediaDir φ) : Bool :=
  (d.descTxt.bind (fgets lineBufSize)).isSome && d.memory && d.init.memory

def valid (d : MediaDir φ) : Bool := described d && !d.mp3.isEmpty && d.opened.isSome
def noMp3 (d : MediaDir φ) : Bool := described d && d.mp3.isEmpty

inductive EntryStep (lib : MediaLib φ) (d : MediaDir φ) : Option (ChannelContext φ) → MediaLib φ → Prop where
  | rejected (mod : Module) (invalid : valid d = false) (unnumbered : noMp3 d = false) :
      EntryStep lib d none { lib with mod }
  | numbered (mod : Module) (invalid : valid d = false) (empty : noMp3 d = true) :
      EntryStep lib d none { lib with mod, currId := lib.currId + 1 }
  | made (mod : Module) (me : ChannelContext φ) (good : valid d = true) (id : me.chnid = lib.currId)
      (files : me.mp3glob = d.mp3) (pos : me.pos = 0) (offset : me.offset = 0) (fd : me.fd = d.opened)
      (open_ : me.fd ≠ none) : EntryStep lib d (some me) { lib with mod, currId := lib.currId + 1 }

theorem initMemory {m n : Module} {env cps burst address} (h : mytbfInit m env cps burst = some (address,n)) :
    address.isSome = env.memory := by
  simp only [mytbfInit,Option.bind_eq_bind] at h
  obtain ⟨k,_,h⟩ := Option.bind_eq_some_iff.mp h
  obtain ⟨l,_,h⟩ := Option.bind_eq_some_iff.mp h
  split at h
  · rename_i memory
    obtain ⟨pos,_,last⟩ := Option.bind_eq_some_iff.mp h
    obtain ⟨rfl,rfl⟩ := Prod.mk.inj (Option.some.inj last)
    exact memory.symm
  · rename_i memory
    obtain ⟨rfl,rfl⟩ := Prod.mk.inj (Option.some.inj h)
    exact (Bool.eq_false_iff.mpr memory).symm

theorem path2entrySound {lib lib' : MediaLib φ} {d res} (h : path2entry lib d = some (res,lib')) :
    EntryStep lib d res lib' := by
  unfold path2entry at h
  split at h
  · rename_i line
    cases Option.some.inj h
    exact .rejected lib.mod (by simp [valid,described,line]) (by simp [noMp3,described,line])
  · rename_i linebuf line
    split at h
    · rename_i memory
      obtain ⟨⟨tbf,mod⟩,made,h⟩ := Option.bind_eq_some_iff.mp h
      have some_ := initMemory made
      cases tbf with
      | none =>
        cases Option.some.inj h
        have poor : d.init.memory = false := some_.symm
        exact .rejected mod (by simp [valid,described,poor]) (by simp [noMp3,described,poor])
      | some tbf =>
        have rich : d.init.memory = true := some_.symm
        have reached : described d = true := by simp [described,line,memory,rich]
        simp only at h
        split at h
        · rename_i files
          cases Option.some.inj h
          exact .numbered mod (by simp [valid,files]) (by simp [noMp3,reached,files])
        · rename_i first rest files
          split at h
          · rename_i closed
            cases Option.some.inj h
            exact .rejected mod (by simp [valid,closed]) (by simp [noMp3,files])
          · rename_i fd opened
            cases Option.some.inj h
            exact .made mod _ (by simp [valid,reached,files,opened]) rfl files.symm rfl rfl opened.symm
              (Option.some_ne_none fd)
    · rename_i memory
      cases Option.some.inj h
      exact .rejected lib.mod (by simp [valid,described,memory]) (by simp [noMp3,described,memory])

end IPv4Media.MediaLibrary
