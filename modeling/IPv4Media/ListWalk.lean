import IPv4Media.Library.Loops
import IPv4Media.ListReception

/-! The for loop over the list in the client's main (client.c), on octets that need not
be a list. A load is asked of memory at every offset: the buffer recvfrom filled from
the front, and behind it whatever lies there. ListCodec.walk is the same loop as long
as it stays in the buffer. -/
namespace IPv4Media.ListWalk
open Octets Proto ListCodec Loops

def memory (buf : Bytes) (after : Nat → UInt8) : Nat → UInt8 := fun k => buf.getD k (after k)

variable (o : ByteOrder) (mem : Nat → UInt8) (len : Int)

/- ntohs(pos->len) -/
def entryLen (pos : Nat) : Nat :=
  ntohs o (value o [mem (pos + entryLenOffset),mem (pos + entryLenOffset + 1)])

def posBelow (pos : Nat) : Bool := decide ((pos : Int) < len)
def posNext (pos : Nat) : Nat := pos + entryLen o mem pos

def Visited (pos : Nat) : Prop :=
  Tested (posBelow len) (posNext o mem) listEntryOffset pos ∧ (pos : Int) < len

def WalkEnds : Prop := Ends (posBelow len) (posNext o mem) listEntryOffset

/- The first n loads %s makes from an offset on. It stops behind a zero octet. -/
def descLoads : Nat → Nat → List Nat
  | 0, _ => []
  | n+1, k => k :: if mem k = 0 then [] else descLoads n (k+1)

def visitLoads (n pos : Nat) : List Nat :=
  pos :: descLoads mem n (pos + entryDescOffset) ++ [pos + entryLenOffset,pos + entryLenOffset + 1]

/- The same offsets read off the octets alone: from the first entry on, each length in
network order leads to the next as long as it starts below len. -/
inductive Chained : Nat → Prop where
  | first (below : (listEntryOffset : Int) < len) : Chained listEntryOffset
  | next {pos} (before : Chained pos)
      (below : ((pos + (256 * (mem (pos+1)).toNat + (mem (pos+2)).toNat) : Nat) : Int) < len) :
      Chained (pos + (256 * (mem (pos+1)).toNat + (mem (pos+2)).toNat))

def Loaded (k : Nat) : Prop := ∃ pos n, Visited o mem len pos ∧ k ∈ visitLoads mem n pos

variable {o mem len}

theorem entryLenValue (pos : Nat) :
    entryLen o mem pos = 256 * (mem (pos + entryLenOffset)).toNat + (mem (pos + entryLenOffset + 1)).toNat := by
  have width : [mem (pos + entryLenOffset),mem (pos + entryLenOffset + 1)].length = sizeofLen := rfl
  rw [entryLen,ntohs,swappedValue o width]
  simp only [value,List.reverse_cons,List.reverse_nil,List.nil_append,List.cons_append,littleValue]
  omega

theorem entryLenZero (pos : Nat) : entryLen o mem pos = 0 ↔
    mem (pos + entryLenOffset) = 0 ∧ mem (pos + entryLenOffset + 1) = 0 := by
  rw [entryLenValue,← UInt8.toNat_inj,← UInt8.toNat_inj]
  simp only [UInt8.toNat_zero]
  omega

theorem posBelowTrue {pos : Nat} : posBelow len pos = true ↔ (pos : Int) < len := decide_eq_true_iff

theorem visitedChained {pos : Nat} : Visited o mem len pos ↔ Chained mem len pos := by
  constructor
  · rintro ⟨tested,below⟩
    induction tested with
    | first => exact .first below
    | @again before tested passed ih =>
      rw [posNext,entryLenValue] at below ⊢
      exact .next (ih (posBelowTrue.mp passed)) below
  · intro chained
    induction chained with
    | first below => exact ⟨.first,below⟩
    | next before below ih =>
      have next : Tested (posBelow len) (posNext o mem) listEntryOffset (posNext o mem _) :=
        .again ih.1 (posBelowTrue.mpr ih.2)
      rw [posNext,entryLenValue] at next
      exact ⟨next,below⟩

theorem descLoaded {n start k : Nat} :
    k ∈ descLoads mem n start ↔ start ≤ k ∧ k < start + n ∧ ∀ j, start ≤ j → j < k → mem j ≠ 0 := by
  induction n generalizing start with
  | zero =>
    simp only [descLoads,List.not_mem_nil,false_iff]
    omega
  | succ n ih =>
    rw [descLoads,List.mem_cons]
    by_cases stop : mem start = 0
    · rw [if_pos stop]
      simp only [List.not_mem_nil,or_false]
      constructor
      · rintro rfl
        exact ⟨Nat.le_refl _,by omega,fun j low high => by omega⟩
      · rintro ⟨low,_,filled⟩
        by_contra other
        exact filled start (Nat.le_refl _) (by omega) stop
    · rw [if_neg stop,ih]
      constructor
      · rintro (rfl | ⟨low,high,filled⟩)
        · exact ⟨Nat.le_refl _,by omega,fun j low high => by omega⟩
        · refine ⟨by omega,by omega,fun j least below => ?_⟩
          by_cases first : j = start
          · rw [first]
            exact stop
          · exact filled j (by omega) below
      · rintro ⟨low,high,filled⟩
        by_cases first : k = start
        · exact .inl first
        · exact .inr ⟨by omega,by omega,fun j least below => filled j (by omega) below⟩

theorem visitLoaded {n pos k : Nat} : k ∈ visitLoads mem n pos ↔
    k = pos ∨ k = pos + entryLenOffset ∨ k = pos + entryLenOffset + 1 ∨
      k ∈ descLoads mem n (pos + entryDescOffset) := by
  simp only [visitLoads,List.cons_append,List.mem_cons,List.mem_append,List.not_mem_nil,or_false]
  tauto

theorem visitInside {bound pos : Nat} : (∀ n, ∀ k ∈ visitLoads mem n pos, k < bound) ↔
    ∃ k, pos + entryDescOffset ≤ k ∧ k < bound ∧ mem k = 0 := by
  have header : pos + entryLenOffset + 1 + 1 = pos + entryDescOffset := rfl
  constructor
  · intro inside
    have last := inside 0 (pos + entryLenOffset + 1) (visitLoaded.mpr (.inr (.inr (.inl rfl))))
    by_contra open_
    push Not at open_
    have reached : bound ∈ descLoads mem (bound+1) (pos + entryDescOffset) :=
      descLoaded.mpr ⟨by omega,by omega,fun j low high => open_ j low high⟩
    exact absurd (inside (bound+1) bound (visitLoaded.mpr (.inr (.inr (.inr reached))))) (Nat.lt_irrefl _)
  · rintro ⟨stop,low,high,zero⟩ n k loaded
    rcases visitLoaded.mp loaded with rfl | rfl | rfl | desc
    · omega
    · omega
    · omega
    · obtain ⟨least,_,filled⟩ := descLoaded.mp desc
      by_contra past
      exact filled stop low (by omega) zero

theorem memoryDelivered (heap : Bytes) (after : Nat → UInt8) {bytes : Bytes} {k : Nat} (inside : k < bytes.length) :
    memory (Socket.deliver heap bytes) after k = bytes[k] := by
  simp [memory,Socket.deliver,List.getD,List.getElem?_append_left inside,inside]

/- The step is taken from the octets, so it is progress unless both are zero. -/
theorem listWalkEnds (o : ByteOrder) (heap : Bytes) (after : Nat → UInt8) (bytes : Bytes) :
    let mem := memory (Socket.deliver heap bytes) after
    WalkEnds o mem bytes.length ↔
      ∀ pos, Chained mem bytes.length pos → ¬ (mem (pos+1) = 0 ∧ mem (pos+2) = 0) := by
  intro mem
  constructor
  · intro ends pos chained zero
    obtain ⟨tested,below⟩ := (@visitedChained o _ _ _).mpr chained
    have same : posNext o mem pos = pos := by rw [posNext,(entryLenZero pos).mpr zero,Nat.add_zero]
    exact staysForever (posBelowTrue.mpr below) same (endsTested ends tested)
  · intro positive
    refine @endsBelow Nat (posBelow bytes.length) (posNext o mem) listEntryOffset (fun pos => bytes.length - pos) ?_
    intro pos tested passed
    have below := posBelowTrue.mp passed
    have step : entryLen o mem pos ≠ 0 := fun zero =>
      positive pos (visitedChained.mp ⟨tested,below⟩) ((entryLenZero pos).mp zero)
    simp only [posNext]
    omega

theorem listWalkInside (o : ByteOrder) (heap : Bytes) (after : Nat → UInt8) (bytes : Bytes) :
    let mem := memory (Socket.deliver heap bytes) after
    (∀ k, Loaded o mem bytes.length k → k < bytes.length) ↔
      ∀ pos, Chained mem bytes.length pos → ∃ k, pos + 3 ≤ k ∧ bytes[k]? = some 0 := by
  intro mem
  have each : (∀ k, Loaded o mem bytes.length k → k < bytes.length) ↔
      ∀ pos, Visited o mem bytes.length pos → ∀ n, ∀ k ∈ visitLoads mem n pos, k < bytes.length :=
    ⟨fun inside pos visited n k loaded => inside k ⟨pos,n,visited,loaded⟩,
      fun inside k ⟨pos,n,visited,loaded⟩ => inside pos visited n k loaded⟩
  rw [each]
  refine forall_congr' fun pos => imp_congr visitedChained ?_
  rw [visitInside]
  refine exists_congr fun k => and_congr_right fun _ => ?_
  rw [List.getElem?_eq_some_iff]
  constructor
  · rintro ⟨below,zero⟩
    exact ⟨below,by rw [← memoryDelivered heap after below]; exact zero⟩
  · rintro ⟨below,zero⟩
    exact ⟨below,by rw [← zero]; exact memoryDelivered heap after below⟩

theorem zeroLenForever : ListReception.takenForList [0,1,0,0,0] = true ∧
    ∀ (o : ByteOrder) (heap : Bytes) (after : Nat → UInt8),
      ¬ WalkEnds o (memory (Socket.deliver heap [0,1,0,0,0]) after) (5 : Nat) := by
  refine ⟨by decide,fun o heap after => ?_⟩
  refine staysForever rfl ?_
  have zero : entryLen o (memory (Socket.deliver heap [0,1,0,0,0]) after) listEntryOffset = 0 :=
    (entryLenZero _).mpr ⟨rfl,rfl⟩
  rw [posNext,zero]
  rfl

theorem unterminatedRead : ListReception.takenForList [0,1,0,5,65] = true ∧
    ∀ (o : ByteOrder) (heap : Bytes) (after : Nat → UInt8),
      Loaded o (memory (Socket.deliver heap [0,1,0,5,65]) after) (5 : Nat) 5 := by
  refine ⟨by decide,fun o heap after => ⟨1,2,⟨.first,by decide⟩,?_⟩⟩
  refine visitLoaded.mpr (.inr (.inr (.inr (descLoaded.mpr ⟨by decide,by decide,fun j low high => ?_⟩))))
  have here : j = 4 := by
    simp only [entryDescOffset,sizeofChnid,sizeofLen] at low
    omega
  subst here
  exact (by decide : (65 : UInt8) ≠ 0)

theorem visitAgrees {buf : Bytes} (after : Nat → UInt8) {pos step : Nat} {v : Visit}
    (seen : visit o buf pos = some (v,step)) :
    v.pos = pos ∧ v.chnid = memory buf after pos ∧ step = entryLen o (memory buf after) pos ∧
    ∀ n, ∀ k ∈ visitLoads (memory buf after) n pos, k < buf.length := by
  unfold visit at seen
  split at seen <;> try contradiction
  rename_i header
  obtain ⟨desc,string,last⟩ := Option.bind_eq_some_iff.mp seen
  obtain ⟨rfl,rfl⟩ := Prod.mk.inj (Option.some.inj last)
  have octet : ∀ {k : Nat} (inside : k < buf.length), memory buf after k = buf[k] := by
    intro k inside
    simp [memory,List.getD,inside]
  have offsets : entryLenOffset = 1 ∧ entryDescOffset = 3 := ⟨rfl,rfl⟩
  have len : (buf.drop (pos + entryLenOffset)).take sizeofLen =
      [memory buf after (pos + entryLenOffset),memory buf after (pos + entryLenOffset + 1)] := by
    rw [octet (by omega : pos + entryLenOffset < buf.length),octet (by omega : pos + entryLenOffset + 1 < buf.length),
      List.drop_eq_getElem_cons (by omega : pos + entryLenOffset < buf.length),
      List.drop_eq_getElem_cons (by omega : pos + entryLenOffset + 1 < buf.length)]
    rfl
  refine ⟨rfl,?_,by rw [len]; rfl,visitInside.mpr ?_⟩
  · rw [octet (by omega : pos < buf.length)]
    simp [List.getD,(by omega : pos < buf.length)]
  · unfold cString at string
    split at string <;> try contradiction
    rename_i terminated
    obtain ⟨d,inside,zero⟩ := List.getElem_of_mem terminated
    rw [List.length_drop] at inside
    rw [List.getElem_drop] at zero
    exact ⟨pos + entryDescOffset + d,by omega,by omega,by rw [octet (by omega)]; exact zero⟩

theorem walkLoops {buf : Bytes} (after : Nat → UInt8) {n pos last : Nat} {visits : List Visit}
    (walked : walk o buf len n pos = some (visits,last)) :
    loop (posBelow len) (posNext o (memory buf after)) n pos = some last := by
  induction n generalizing pos visits with
  | zero => simp [walk] at walked
  | succ n ih =>
    rw [walk] at walked
    rw [loop]
    by_cases below : (pos : Int) < len
    · rw [if_pos below] at walked
      rw [if_pos (posBelowTrue.mpr below)]
      obtain ⟨⟨v,step⟩,seen,rest⟩ := Option.bind_eq_some_iff.mp walked
      obtain ⟨⟨others,stop⟩,onward,same⟩ := Option.bind_eq_some_iff.mp rest
      obtain ⟨rfl,rfl⟩ := Prod.mk.inj (Option.some.inj same)
      obtain ⟨_,_,step_,_⟩ := visitAgrees after seen
      rw [posNext,← step_]
      exact ih onward
    · rw [if_neg below] at walked
      obtain ⟨rfl,rfl⟩ := Prod.mk.inj (Option.some.inj walked)
      rw [if_neg (fun passed => below (posBelowTrue.mp passed))]

theorem publishedWalkEnds (client : ByteOrder) {entries : List MediaLibrary.MlibListentry}
    (fits : totalsize entries ≤ msgListMax) (heap : Bytes) (after : Nat → UInt8) :
    WalkEnds client (memory (Socket.deliver heap (encodeList entries)) after) (encodeList entries).length :=
  ⟨_,_,walkLoops after (walkDelivered client fits heap)⟩

end IPv4Media.ListWalk
