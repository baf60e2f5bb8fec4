import IPv4Media.Library.CyclicSearch
import IPv4Media.Library.Octets

/-! struct channel_context_st, open_next and the loop of mlib_readchn (medialib.c).
A descriptor is known by what open returned it for, so close leaves no trace here.
Every index a call puts on gl_pathv is kept, the one in open_next's log line too;
what that line prints is not. -/
namespace IPv4Media.Playlist
open Octets

abbrev Path := Bytes

/- glob answered 0, so gl_pathc is positive and gl_pathv[pos] a match. fd none stands
for a negative descriptor. -/
structure ChannelContext (φ : Type) where
  chnid : UInt8
  desc : Bytes
  mp3glob : List Path
  pos : Nat
  fd : Option φ
  offset : Nat
  tbf : Nat
  inside : pos < mp3glob.length
  deriving DecidableEq

/- What open and pread answer within one call. Both are told how far the loop of
mlib_readchn has come and open also its attempt in open_next, so an answer may
change at any time; a pread of n octets returns at most n. -/
structure Os (φ : Type) where
  openFile : Nat → Nat → Path → Option φ
  preadFile : Nat → φ → Nat → Nat → Option Bytes
  short : ∀ k fd n offset bytes, preadFile k fd n offset = some bytes → bytes.length ≤ n

variable {φ : Type}

def path (ch : ChannelContext φ) : Path := ch.mp3glob.get ⟨ch.pos,ch.inside⟩

def advance (ch : ChannelContext φ) : ChannelContext φ :=
  { ch with pos := CyclicSearch.next ch.mp3glob.length ch.pos, inside := CyclicSearch.nextBelow ch.inside }

structure Opened (φ : Type) where
  ret : Int
  ch : ChannelContext φ
  subscripts : List Nat

def openNextLoop (os : Os φ) (chnid : UInt8) (k : Nat) : Nat → Nat → ChannelContext φ → Opened φ
  | 0, _, ch => ⟨-1,ch,[]⟩
  | n+1, i, ch =>
    match os.openFile k i (path (advance ch)) with
    | none =>
      let rest := openNextLoop os chnid k n (i+1) { advance ch with fd := none }
      { rest with subscripts := (advance ch).pos :: chnid.toNat :: rest.subscripts }
    | some fd => ⟨0,{ advance ch with fd := some fd, offset := 0 },[(advance ch).pos]⟩

def openNext (os : Os φ) (chnid : UInt8) (k : Nat) (ch : ChannelContext φ) : Opened φ :=
  openNextLoop os chnid k ch.mp3glob.length 0 ch

-- pread on a negative descriptor fails.
def pread (os : Os φ) (k : Nat) (ch : ChannelContext φ) (n : Nat) : Option Bytes :=
  ch.fd.bind fun fd => os.preadFile k fd n ch.offset

structure Read (φ : Type) where
  len : Int
  buf : Bytes
  ch : ChannelContext φ
  subscripts : List Nat

def readLoop (os : Os φ) (chnid : UInt8) (tbfsize : Nat) : Nat → Nat → ChannelContext φ → Option (Read φ)
  | 0, _, _ => none
  | n+1, k, ch =>
    match pread os k ch tbfsize with
    | none => do
      let opened := openNext os chnid k ch
      let rest ← readLoop os chnid tbfsize n (k+1) opened.ch
      some { rest with subscripts := ch.pos :: opened.subscripts ++ rest.subscripts }
    | some [] =>
      let opened := openNext os chnid k ch
      some ⟨0,[],opened.ch,ch.pos :: opened.subscripts⟩
    | some (b :: bytes) =>
      let len := (b :: bytes).length
      some ⟨len,b :: bytes,{ ch with offset := ch.offset + len },[]⟩

/- From the grant on: the loop, then the refund that mytbf_returntoken is called with. -/
def mlibReadchn (os : Os φ) (chnid : UInt8) (tbfsize iterations : Nat) (ch : ChannelContext φ) :
    Option (Read φ × Option Int) := do
  let read ← readLoop os chnid tbfsize iterations 0 ch
  let rest := (tbfsize : Int) - read.len
  some (read,if rest > 0 then some rest else none)

inductive ReadSource (os : Os φ) (chnid : UInt8) (tbfsize : Nat) : Nat → ChannelContext φ → Read φ → Prop where
  | failed {k ch rest} (error : pread os k ch tbfsize = none)
      (next : ReadSource os chnid tbfsize (k+1) (openNext os chnid k ch).ch rest) :
      ReadSource os chnid tbfsize k ch
        { rest with subscripts := ch.pos :: (openNext os chnid k ch).subscripts ++ rest.subscripts }
  | atEnd {k ch} (ended : pread os k ch tbfsize = some []) :
      ReadSource os chnid tbfsize k ch
        ⟨0,[],(openNext os chnid k ch).ch,ch.pos :: (openNext os chnid k ch).subscripts⟩
  | data {k ch bytes} (got : pread os k ch tbfsize = some bytes) (filled : bytes ≠ []) :
      ReadSource os chnid tbfsize k ch ⟨bytes.length,bytes,{ ch with offset := ch.offset + bytes.length },[]⟩

theorem readSound {os : Os φ} {chnid tbfsize n k ch read}
    (h : readLoop os chnid tbfsize n k ch = some read) : ReadSource os chnid tbfsize k ch read := by
  induction n generalizing k ch read with
  | zero => simp [readLoop] at h
  | succ n ih =>
    unfold readLoop at h
    split at h
    · rename_i error
      obtain ⟨rest,looped,last⟩ := Option.bind_eq_some_iff.mp h
      cases Option.some.inj last
      exact .failed error (ih looped)
    · rename_i ended
      cases Option.some.inj h
      exact .atEnd ended
    · rename_i got
      cases Option.some.inj h
      exact .data got (List.cons_ne_nil _ _)

theorem readComplete {os : Os φ} {chnid tbfsize k ch read} (source : ReadSource os chnid tbfsize k ch read) :
    ∃ n, readLoop os chnid tbfsize n k ch = some read := by
  induction source with
  | failed error next ih =>
    obtain ⟨n,looped⟩ := ih
    exact ⟨n+1,by rw [readLoop,error]; simp [looped]⟩
  | atEnd ended => exact ⟨1,by rw [readLoop,ended]⟩
  | @data k ch bytes got filled =>
    obtain ⟨b,rest,rfl⟩ := List.exists_cons_of_ne_nil filled
    exact ⟨1,by rw [readLoop,got]⟩

theorem readReturns {os : Os φ} {tbfsize n k ch bytes} (chnid : UInt8) (got : pread os k ch tbfsize = some bytes)
    (more : 0 < n) : ∃ read, readLoop os chnid tbfsize n k ch = some read := by
  obtain ⟨n,rfl⟩ := Nat.exists_eq_succ_of_ne_zero (by omega : n ≠ 0)
  cases bytes with
  | nil => exact ⟨_,by rw [readLoop,got]⟩
  | cons b bytes => exact ⟨_,by rw [readLoop,got]⟩

def fileAt (os : Os φ) (k : Nat) (files : List Path) (i pos : Nat) : Option φ :=
  files[pos]?.bind (os.openFile k i)

theorem fileHere (os : Os φ) (k i : Nat) (ch : ChannelContext φ) :
    fileAt os k ch.mp3glob i ch.pos = os.openFile k i (path ch) := by
  rw [fileAt,List.getElem?_eq_getElem ch.inside]
  rfl

theorem fileAdvanced (os : Os φ) (k i : Nat) (ch : ChannelContext φ) :
    fileAt os k ch.mp3glob i (CyclicSearch.next ch.mp3glob.length ch.pos) =
      os.openFile k i (path (advance ch)) :=
  fileHere os k i (advance ch)

structure OpenedAs (ch : ChannelContext φ) (found : Nat × Option φ) (opened : Opened φ) : Prop where
  pos : opened.ch.pos = found.1
  fd : opened.ch.fd = found.2
  ret : opened.ret = if found.2.isSome then 0 else -1
  offset : opened.ch.offset = if found.2.isSome then 0 else ch.offset
  mp3glob : opened.ch.mp3glob = ch.mp3glob
  chnid : opened.ch.chnid = ch.chnid
  tbf : opened.ch.tbf = ch.tbf
  desc : opened.ch.desc = ch.desc

theorem openNextLoopSeek (os : Os φ) (chnid : UInt8) (k : Nat) {n i : Nat} {ch : ChannelContext φ}
    (tries : 0 < n ∨ ch.fd = none) :
    OpenedAs ch (CyclicSearch.seek (fileAt os k ch.mp3glob) ch.mp3glob.length n i ch.pos)
      (openNextLoop os chnid k n i ch) := by
  induction n generalizing i ch with
  | zero =>
    have closed : ch.fd = none := tries.resolve_left (Nat.lt_irrefl 0)
    exact ⟨rfl,closed,rfl,rfl,rfl,rfl,rfl,rfl⟩
  | succ n ih =>
    unfold openNextLoop CyclicSearch.seek
    rw [fileAdvanced]
    cases answer : os.openFile k i (path (advance ch)) with
    | none =>
      have rest := @ih (i+1) { advance ch with fd := none } (.inr rfl)
      exact ⟨rest.pos,rest.fd,rest.ret,rest.offset,rest.mp3glob,rest.chnid,rest.tbf,rest.desc⟩
    | some fd => exact ⟨rfl,rfl,rfl,rfl,rfl,rfl,rfl,rfl⟩

theorem openNextSeek (os : Os φ) (chnid : UInt8) (k : Nat) (ch : ChannelContext φ) :
    OpenedAs ch (CyclicSearch.seek (fileAt os k ch.mp3glob) ch.mp3glob.length ch.mp3glob.length 0 ch.pos)
      (openNext os chnid k ch) :=
  openNextLoopSeek os chnid k (.inl (Nat.lt_of_le_of_lt (Nat.zero_le _) ch.inside))

def fileAfter (os : Os φ) (k : Nat) (ch : ChannelContext φ) (d : Nat) : Option φ :=
  fileAt os k ch.mp3glob d ((ch.pos+(d+1)) % ch.mp3glob.length)

inductive OpenNextStep (os : Os φ) (k : Nat) (ch : ChannelContext φ) (opened : Opened φ) : Prop where
  | found (d : Nat) (fd : φ) (within : d < ch.mp3glob.length) (silent : ∀ e < d, fileAfter os k ch e = none)
      (answer : fileAfter os k ch d = some fd) (ret : opened.ret = 0)
      (pos : opened.ch.pos = (ch.pos+(d+1)) % ch.mp3glob.length) (held : opened.ch.fd = some fd)
      (offset : opened.ch.offset = 0)
  | missed (silent : ∀ e < ch.mp3glob.length, fileAfter os k ch e = none) (ret : opened.ret = -1)
      (pos : opened.ch.pos = ch.pos) (held : opened.ch.fd = none) (offset : opened.ch.offset = ch.offset)

theorem openNextCases (os : Os φ) (chnid : UInt8) (k : Nat) (ch : ChannelContext φ) :
    OpenNextStep os k ch (openNext os chnid k ch) := by
  have opened := openNextSeek os chnid k ch
  rcases CyclicSearch.firstAnswer (fileAt os k ch.mp3glob) ch.mp3glob.length ch.mp3glob.length 0 ch.pos
    with silent | ⟨d,within,fd,silent,answer⟩
  · rw [CyclicSearch.seekMiss ch.inside silent] at opened
    simp only [Nat.zero_add] at silent
    have back : (ch.pos + ch.mp3glob.length) % ch.mp3glob.length = ch.pos := by
      rw [Nat.add_mod_right]
      exact Nat.mod_eq_of_lt ch.inside
    exact .missed silent opened.ret (opened.pos.trans back) opened.fd opened.offset
  · rw [CyclicSearch.seekHit ch.inside within silent answer] at opened
    simp only [Nat.zero_add] at silent answer
    exact .found d fd within silent answer opened.ret opened.pos opened.fd opened.offset

def openNextTried (os : Os φ) (k : Nat) : Nat → Nat → ChannelContext φ → List Nat
  | 0, _, _ => []
  | n+1, i, ch => (advance ch).pos :: match os.openFile k i (path (advance ch)) with
    | none => openNextTried os k n (i+1) { advance ch with fd := none }
    | some _ => []

theorem openNextTriedAround (os : Os φ) (k n i : Nat) (ch : ChannelContext φ) :
    openNextTried os k n i ch =
      CyclicSearch.tried (fileAt os k ch.mp3glob) ch.mp3glob.length n i ch.pos := by
  induction n generalizing i ch with
  | zero => rfl
  | succ n ih =>
    rw [openNextTried,CyclicSearch.tried,fileAdvanced]
    cases os.openFile k i (path (advance ch)) with
    | none => exact congrArg (List.cons _) (ih (i+1) { advance ch with fd := none })
    | some fd => rfl

/- Behind each index that it opens, open_next puts chnid on gl_pathv in the log line of a
failure. -/
theorem openNextSubscripts (os : Os φ) (chnid : UInt8) (k n i : Nat) (ch : ChannelContext φ) :
    (openNextLoop os chnid k n i ch).subscripts ++
        (if (openNextLoop os chnid k n i ch).ret = 0 then [chnid.toNat] else []) =
      (openNextTried os k n i ch).flatMap fun pos => [pos,chnid.toNat] := by
  induction n generalizing i ch with
  | zero => rfl
  | succ n ih =>
    rw [openNextLoop,openNextTried]
    cases os.openFile k i (path (advance ch)) with
    | none =>
      have rest := ih (i+1) { advance ch with fd := none }
      simp only [List.flatMap_cons,List.cons_append,List.nil_append,rest]
    | some fd => rfl

theorem openNextSuccessor (os : Os φ) (chnid : UInt8) (k : Nat) (ch : ChannelContext φ) :
    let m := ch.mp3glob.length
    let opened := openNext os chnid k ch
    (∃ d fd, d < m ∧ (∀ e < d, fileAfter os k ch e = none) ∧ fileAfter os k ch d = some fd ∧ opened.ret = 0 ∧
      opened.ch.pos = (ch.pos+(d+1)) % m ∧ opened.ch.fd = some fd ∧ opened.ch.offset = 0) ∨
    ((∀ d < m, fileAfter os k ch d = none) ∧ opened.ret = -1 ∧
      (openNextTried os k m 0 ch).Perm (List.range m) ∧ opened.ch.pos = ch.pos ∧ opened.ch.fd = none ∧
      opened.ch.offset = ch.offset) := by
  intro m opened
  cases openNextCases os chnid k ch with
  | found d fd within silent answer ret pos held offset =>
    exact .inl ⟨d,fd,within,silent,answer,ret,pos,held,offset⟩
  | missed silent ret pos held offset =>
    refine .inr ⟨silent,ret,?_,pos,held,offset⟩
    have around : ∀ e < m, fileAt os k ch.mp3glob (0+e) ((ch.pos+(e+1)) % m) = none := by
      intro e below
      rw [Nat.zero_add]
      exact silent e below
    rw [openNextTriedAround,CyclicSearch.triedMiss ch.inside around]
    exact CyclicSearch.turnPerm _ _

structure SameChannel (ch other : ChannelContext φ) : Prop where
  mp3glob : other.mp3glob = ch.mp3glob
  chnid : other.chnid = ch.chnid
  tbf : other.tbf = ch.tbf
  desc : other.desc = ch.desc

theorem openNextSame (os : Os φ) (chnid : UInt8) (k : Nat) (ch : ChannelContext φ) :
    SameChannel ch (openNext os chnid k ch).ch := by
  have opened := openNextSeek os chnid k ch
  exact ⟨opened.mp3glob,opened.chnid,opened.tbf,opened.desc⟩

theorem readSame {os : Os φ} {chnid tbfsize k ch read} (source : ReadSource os chnid tbfsize k ch read) :
    SameChannel ch read.ch := by
  induction source with
  | @failed k ch rest error next ih =>
    have moved := openNextSame os chnid k ch
    exact ⟨ih.mp3glob.trans moved.mp3glob,ih.chnid.trans moved.chnid,ih.tbf.trans moved.tbf,
      ih.desc.trans moved.desc⟩
  | @atEnd k ch ended => exact openNextSame os chnid k ch
  | data got filled => exact ⟨rfl,rfl,rfl,rfl⟩

theorem readLength {os : Os φ} {chnid tbfsize k ch read} (source : ReadSource os chnid tbfsize k ch read) :
    read.len = read.buf.length ∧ read.buf.length ≤ tbfsize := by
  induction source with
  | failed error next ih => exact ih
  | atEnd ended => exact ⟨rfl,Nat.zero_le _⟩
  | @data k ch bytes got filled =>
    obtain ⟨fd,_,stored⟩ := Option.bind_eq_some_iff.mp got
    exact ⟨rfl,os.short _ _ _ _ _ stored⟩

end IPv4Media.Playlist
