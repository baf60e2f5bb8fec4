import IPv4Media.Library.Execution
import IPv4Media.Playlist

/-! The while(1) of mlib_readchn one pass at a time, and the indices a run of passes and
open_next calls puts on gl_pathv. The log line of open_next takes chnid for an index. -/
namespace IPv4Media.ReadPasses
open Octets Playlist Execution

variable {φ : Type}

/- done is what the loop is left with: len and the octets in buf. -/
structure Pass (φ : Type) where
  ch : ChannelContext φ
  subscripts : List Nat
  done : Option (Int × Bytes)

def readPass (os : Os φ) (chnid : UInt8) (tbfsize k : Nat) (ch : ChannelContext φ) : Pass φ :=
  match pread os k ch tbfsize with
  | none =>
    let opened := openNext os chnid k ch
    ⟨opened.ch,ch.pos :: opened.subscripts,none⟩
  | some [] =>
    let opened := openNext os chnid k ch
    ⟨opened.ch,ch.pos :: opened.subscripts,some (0,[])⟩
  | some (b :: bytes) =>
    let len := (b :: bytes).length
    ⟨{ ch with offset := ch.offset + len },[],some (len,b :: bytes)⟩

theorem readLoopPass (os : Os φ) (chnid : UInt8) (tbfsize n k : Nat) (ch : ChannelContext φ) :
    readLoop os chnid tbfsize (n+1) k ch =
      match (readPass os chnid tbfsize k ch).done with
      | some (len,buf) =>
        some ⟨len,buf,(readPass os chnid tbfsize k ch).ch,(readPass os chnid tbfsize k ch).subscripts⟩
      | none => (readLoop os chnid tbfsize n (k+1) (readPass os chnid tbfsize k ch).ch).map fun rest =>
        { rest with subscripts := (readPass os chnid tbfsize k ch).subscripts ++ rest.subscripts } := by
  rw [readLoop,readPass]
  cases pread os k ch tbfsize with
  | none => simp only [Option.map_eq_bind,List.cons_append]; rfl
  | some bytes => cases bytes <;> rfl

inductive Step (φ : Type)
  | openNext (os : Os φ) (k : Nat)
  | pass (os : Os φ) (tbfsize k : Nat)

def stepNext (chnid : UInt8) (ch : ChannelContext φ) : Step φ → Option (ChannelContext φ)
  | .openNext os k => some (openNext os chnid k ch).ch
  | .pass os tbfsize k => some (readPass os chnid tbfsize k ch).ch

def stepSubscripts (chnid : UInt8) (ch : ChannelContext φ) : Step φ → List Nat
  | .openNext os k => (openNext os chnid k ch).subscripts
  | .pass os tbfsize k => (readPass os chnid tbfsize k ch).subscripts

def nextOpens (os : Os φ) (k : Nat) (ch : ChannelContext φ) : Bool := (os.openFile k 0 (path (advance ch))).isSome

def OpensAtOnce (ch : ChannelContext φ) : Step φ → Prop
  | .openNext os k => nextOpens os k ch = true
  | .pass os tbfsize k => (∃ b bytes, pread os k ch tbfsize = some (b :: bytes)) ∨ nextOpens os k ch = true

theorem triedInside (os : Os φ) (k n i : Nat) (ch : ChannelContext φ) :
    ∀ pos ∈ openNextTried os k n i ch, pos < ch.mp3glob.length := by
  induction n generalizing i ch with
  | zero => simp [openNextTried]
  | succ n ih =>
    intro pos member
    rw [openNextTried] at member
    rcases List.mem_cons.mp member with rfl | later
    · exact (advance ch).inside
    · cases answer : os.openFile k i (path (advance ch)) with
      | none =>
        rw [answer] at later
        exact ih (i+1) { advance ch with fd := none } pos later
      | some fd => simp [answer] at later

theorem openNextFirst (os : Os φ) (chnid : UInt8) (k : Nat) (ch : ChannelContext φ) :
    (openNext os chnid k ch).subscripts = if nextOpens os k ch then [(advance ch).pos]
      else (advance ch).pos :: chnid.toNat ::
        (openNextLoop os chnid k (ch.mp3glob.length-1) 1 { advance ch with fd := none }).subscripts := by
  obtain ⟨n,size⟩ := Nat.exists_eq_succ_of_ne_zero (Nat.ne_of_gt (Nat.lt_of_le_of_lt (Nat.zero_le _) ch.inside))
  rw [openNext,size,openNextLoop,nextOpens]
  cases os.openFile k 0 (path (advance ch)) with
  | none => rfl
  | some fd => rfl

/- The log line is reached when the first file tried does not open. -/
theorem openNextIndices (os : Os φ) (chnid : UInt8) (k : Nat) (ch : ChannelContext φ) :
    (∀ i ∈ (openNext os chnid k ch).subscripts, i < ch.mp3glob.length) ↔
      chnid.toNat < ch.mp3glob.length ∨ nextOpens os k ch = true := by
  constructor
  · intro inside
    by_cases opens : nextOpens os k ch = true
    · exact .inr opens
    · rw [openNextFirst,if_neg opens] at inside
      exact .inl (inside _ (by simp))
  · rintro (below | opens) i member
    · have both := List.mem_append_left (if (openNext os chnid k ch).ret = 0 then [chnid.toNat] else []) member
      rw [openNext,openNextSubscripts] at both
      obtain ⟨pos,tried,here⟩ := List.mem_flatMap.mp both
      rcases List.mem_cons.mp here with rfl | log
      · exact triedInside os k _ 0 ch i tried
      · rw [List.mem_singleton.mp log]
        exact below
    · rw [openNextFirst,if_pos opens] at member
      rw [List.mem_singleton.mp member]
      exact (advance ch).inside

theorem passIndices (os : Os φ) (chnid : UInt8) (tbfsize k : Nat) (ch : ChannelContext φ) :
    (∀ i ∈ (readPass os chnid tbfsize k ch).subscripts, i < ch.mp3glob.length) ↔
      chnid.toNat < ch.mp3glob.length ∨ OpensAtOnce ch (.pass os tbfsize k) := by
  have logged : (∀ i ∈ ch.pos :: (openNext os chnid k ch).subscripts, i < ch.mp3glob.length) ↔
      chnid.toNat < ch.mp3glob.length ∨ nextOpens os k ch = true := by
    rw [List.forall_mem_cons,openNextIndices]
    exact and_iff_right ch.inside
  cases answer : pread os k ch tbfsize with
  | none => simpa [readPass,OpensAtOnce,answer] using logged
  | some bytes =>
    cases bytes with
    | nil => simpa [readPass,OpensAtOnce,answer] using logged
    | cons b bytes => simp [readPass,OpensAtOnce,answer]

theorem playlistIndices (chnid : UInt8) (ch : ChannelContext φ) (steps : List (Step φ)) :
    Along (stepNext chnid) (fun ch e _ => ∀ i ∈ stepSubscripts chnid ch e, i < ch.mp3glob.length) ch steps ↔
      Along (stepNext chnid) (fun ch e _ => chnid.toNat < ch.mp3glob.length ∨ OpensAtOnce ch e) ch steps := by
  refine alongCongr fun ch e _ _ => ?_
  cases e with
  | openNext os k => exact openNextIndices os chnid k ch
  | pass os tbfsize k => exact passIndices os chnid tbfsize k ch

def runSubscripts (chnid : UInt8) : ChannelContext φ → List (Step φ) → List Nat
  | _, [] => []
  | ch, e :: steps =>
    stepSubscripts chnid ch e ++ ((stepNext chnid ch e).map fun t => runSubscripts chnid t steps).getD []

def passes (os : Os φ) (tbfsize : Nat) : Nat → Nat → List (Step φ)
  | 0, _ => []
  | n+1, k => .pass os tbfsize k :: passes os tbfsize n (k+1)

/- A mlib_readchn that returns is such a run. -/
theorem readRun {os : Os φ} {chnid : UInt8} {tbfsize n k : Nat} {ch : ChannelContext φ} {read : Read φ}
    (looped : readLoop os chnid tbfsize n k ch = some read) : ∃ m,
      exec (stepNext chnid) ch (passes os tbfsize m k) = some read.ch ∧
      runSubscripts chnid ch (passes os tbfsize m k) = read.subscripts := by
  induction n generalizing k ch read with
  | zero => simp [readLoop] at looped
  | succ n ih =>
    rw [readLoopPass] at looped
    cases done : (readPass os chnid tbfsize k ch).done with
    | some pair =>
      rw [done] at looped
      cases Option.some.inj looped
      exact ⟨1,rfl,List.append_nil _⟩
    | none =>
      rw [done] at looped
      obtain ⟨rest,later,rfl⟩ := Option.map_eq_some_iff.mp looped
      obtain ⟨m,run,subscripts⟩ := ih later
      exact ⟨m+1,run,congrArg (_ ++ ·) subscripts⟩

/- Channel 3 with a list of one file, which goes missing behind descriptor 1. -/
def soloPlaylist : ChannelContext Nat := ⟨3,[],[[47,97]],0,some 1,0,0,by decide⟩

def missing : Os Nat :=
  ⟨fun _ _ _ => none,fun _ fd _ _ => if fd = 0 then some [] else none,by
    intro _ fd n _ bytes got
    split at got <;> try contradiction
    cases Option.some.inj got
    exact Nat.zero_le n⟩

theorem chnidSubscript : stepSubscripts 3 soloPlaylist (.pass missing 4 0) = [0,0,3] ∧
    ¬ Along (stepNext 3) (fun ch e _ => ∀ i ∈ stepSubscripts 3 ch e, i < ch.mp3glob.length) soloPlaylist
      [.pass missing 4 0] := by
  refine ⟨rfl,fun along => ?_⟩
  have inside := (along _ rfl).1 3 (by decide)
  exact absurd inside (by decide)

end IPv4Media.ReadPasses
