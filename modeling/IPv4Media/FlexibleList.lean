import IPv4Media.Library.Octets

/-! The programme list with flexible array members (nest_flexiblearraytest.c): chnid_t is
16 bits there, there is a count of entries, and lengths are in the byte order of the host.
create_msg_list writes into what malloc gave; parse_msg_list reads a buffer of size
octets, and a load behind them has no result. -/
namespace IPv4Media.FlexibleList
open Octets

def listchnid : Nat := 0
def sizeofChnid : Nat := 2
def sizeofLen : Nat := 2
def sizeofMsgList : Nat := sizeofChnid + 2
def sizeofMsgListentry : Nat := sizeofChnid + sizeofLen
def entryCountOffset : Nat := sizeofChnid
def entryLenOffset : Nat := sizeofChnid
def entryDescOffset : Nat := sizeofMsgListentry

/- channel_ids[i] and descriptions[i], a C string. -/
structure Channel where
  chnid : UInt16
  desc : Bytes
  nulFree : (0 : UInt8) ∉ desc

structure Listentry where
  chnid : UInt16
  len : UInt16
  desc : Bytes

def createListentry (c : Channel) : Listentry := ⟨c.chnid,UInt16.ofNat (c.desc.length + 1),c.desc ++ [0]⟩

def memoryOf (o : ByteOrder) (e : Listentry) : Bytes :=
  image o sizeofChnid e.chnid.toNat ++ image o sizeofLen e.len.toNat ++ e.desc

def entrySize (e : Listentry) : Nat := sizeofMsgListentry + e.len.toNat

structure Mallocs where
  temp : Bool
  entry : Nat → Bool
  buffer : Bool

def totalSize (cs : List Channel) : Nat :=
  cs.foldl (fun total c => total + (sizeofMsgListentry + c.desc.length + 1)) sizeofMsgList

def copyEntries (o : ByteOrder) : Cells → Nat → List Listentry → Option Cells
  | m, _, [] => some m
  | m, currentPos, e :: entries => do
    let m ← store m currentPos ((memoryOf o e).take (entrySize e))
    copyEntries o m (currentPos + entrySize e) entries

/- some none is NULL, none a copy behind the buffer. The assignment to entry_count keeps
16 bits. -/
def createMsgList (o : ByteOrder) (mallocs : Mallocs) (cs : List Channel) : Option (Option Cells) :=
  if mallocs.temp && (List.range cs.length).all mallocs.entry && mallocs.buffer then do
    let m ← store (fresh (totalSize cs)) 0 (image o sizeofChnid listchnid)
    let m ← store m entryCountOffset (image o 2 cs.length)
    let m ← copyEntries o m sizeofMsgList (cs.map createListentry)
    some (some m)
  else some none

structure Shown where
  chnid : Nat
  len : Nat
  desc : Bytes
  deriving DecidableEq, Repr

inductive Status where
  | done | overflow
  deriving DecidableEq, Repr

def load (o : ByteOrder) (mem : Bytes) (at_ : Nat) : Nat := value o ((mem.drop at_).take 2)

def parseEntries (o : ByteOrder) (mem : Bytes) : Nat → Nat → Option (List Shown × Status)
  | 0, _ => some ([],.done)
  | n+1, currentPos =>
    if currentPos < mem.length then
      if currentPos + entryDescOffset ≤ mem.length then
        let len := load o mem (currentPos + entryLenOffset)
        if mem.length < currentPos + entryDescOffset + len then some ([],.overflow)
        else do
          let desc ← cString mem (currentPos + entryDescOffset)
          let (rest,status) ← parseEntries o mem n (currentPos + (sizeofMsgListentry + len))
          some (⟨load o mem currentPos,len,desc⟩ :: rest,status)
      else none
    else some ([],.done)

inductive Parsed where
  | tooSmall
  | listed (chnid entryCount : Nat) (shown : List Shown) (status : Status)
  deriving DecidableEq, Repr

def parseMsgList (o : ByteOrder) (mem : Bytes) : Option Parsed :=
  if mem.length < sizeofMsgList then some .tooSmall
  else do
    let count := load o mem entryCountOffset
    let (shown,status) ← parseEntries o mem count sizeofMsgList
    some (.listed (load o mem 0) count shown status)

def encodeEntry (o : ByteOrder) (c : Channel) : Bytes :=
  (memoryOf o (createListentry c)).take (entrySize (createListentry c))

def encodeHeader (o : ByteOrder) (count : Nat) : Bytes := image o sizeofChnid listchnid ++ image o 2 count

def encodeList (o : ByteOrder) (cs : List Channel) : Bytes := encodeHeader o cs.length ++ cs.flatMap (encodeEntry o)

def unwritten (o : ByteOrder) (cs : List Channel) : Nat := totalSize cs - (encodeList o cs).length

def shownAs (c : Channel) : Shown := ⟨c.chnid.toNat,c.desc.length + 1,c.desc⟩

theorem lenBelow (c : Channel) : (createListentry c).len.toNat = (c.desc.length + 1) % 2^16 := by
  simp [createListentry]

theorem memoryLength (o : ByteOrder) (c : Channel) :
    (memoryOf o (createListentry c)).length = sizeofMsgListentry + c.desc.length + 1 := by
  simp [memoryOf,createListentry,sizeofMsgListentry,sizeofChnid,sizeofLen]
  omega

theorem encodeEntryLength (o : ByteOrder) (c : Channel) :
    (encodeEntry o c).length = sizeofMsgListentry + (c.desc.length + 1) % 2^16 := by
  have below := Nat.mod_le (c.desc.length + 1) (2^16)
  rw [encodeEntry,List.length_take,memoryLength,entrySize,lenBelow]
  omega

@[simp] theorem encodeHeaderLength (o : ByteOrder) (count : Nat) : (encodeHeader o count).length = sizeofMsgList := by
  simp [encodeHeader,sizeofMsgList]

theorem totalSizeSum (cs : List Channel) :
    totalSize cs = sizeofMsgList + (cs.map fun c => sizeofMsgListentry + c.desc.length + 1).sum := by
  have grown : ∀ total, cs.foldl (fun total c => total + (sizeofMsgListentry + c.desc.length + 1)) total =
      total + (cs.map fun c => sizeofMsgListentry + c.desc.length + 1).sum := by
    induction cs with
    | nil => simp
    | cons c cs ih =>
      intro total
      simp only [List.foldl_cons,ih,List.map_cons,List.sum_cons]
      omega
  exact grown sizeofMsgList

theorem copiesFit (o : ByteOrder) (cs : List Channel) : (cs.flatMap (encodeEntry o)).length ≤
    (cs.map fun c => sizeofMsgListentry + c.desc.length + 1).sum := by
  induction cs with
  | nil => simp
  | cons c cs ih =>
    have below := Nat.mod_le (c.desc.length + 1) (2^16)
    simp only [List.flatMap_cons,List.length_append,encodeEntryLength,List.map_cons,List.sum_cons]
    omega

theorem copyEntriesNext {o : ByteOrder} {done : Bytes} {rest : Nat} (cs : List Channel)
    (room : (cs.flatMap (encodeEntry o)).length ≤ rest) :
    copyEntries o (filled done rest) done.length (cs.map createListentry) =
      some (filled (done ++ cs.flatMap (encodeEntry o)) (rest - (cs.flatMap (encodeEntry o)).length)) := by
  induction cs generalizing done rest with
  | nil => simp [copyEntries]
  | cons c cs ih =>
    rw [List.flatMap_cons,List.length_append] at room
    have first : store (filled done rest) done.length (encodeEntry o c) =
        some (filled (done ++ encodeEntry o c) (rest - (encodeEntry o c).length)) := storeNext rfl (by omega)
    have tail := @ih (done ++ encodeEntry o c) (rest - (encodeEntry o c).length) (by omega)
    have size : entrySize (createListentry c) = (encodeEntry o c).length := by
      rw [encodeEntryLength,entrySize,lenBelow]
    rw [List.length_append] at tail
    rw [encodeEntry] at first
    simp only [List.map_cons,copyEntries,first,Option.bind_eq_bind,Option.bind_some]
    rw [← encodeEntry,size,tail]
    simp only [List.flatMap_cons,List.append_assoc,List.length_append,Nat.sub_sub]

/- The buffer is written from the front, never behind its end; what a length of 16 bits
cuts off of a description stays unwritten at the back. -/
theorem createFills (o : ByteOrder) {mallocs : Mallocs} {cs : List Channel}
    (memory : (mallocs.temp && (List.range cs.length).all mallocs.entry && mallocs.buffer) = true) :
    createMsgList o mallocs cs = some (some (filled (encodeList o cs) (unwritten o cs))) := by
  have fits := copiesFit o cs
  have total := totalSizeSum cs
  have header : sizeofMsgList = 4 := rfl
  have id : store (fresh (totalSize cs)) 0 (image o sizeofChnid listchnid) =
      some (filled (image o sizeofChnid listchnid) (totalSize cs - sizeofChnid)) := by
    have next := @storeNext [] (image o sizeofChnid listchnid) (totalSize cs) 0 rfl (by rw [imageLength,sizeofChnid]; omega)
    rw [imageLength] at next
    exact next
  have count : store (filled (image o sizeofChnid listchnid) (totalSize cs - sizeofChnid)) entryCountOffset
      (image o 2 cs.length) = some (filled (encodeHeader o cs.length) (totalSize cs - sizeofMsgList)) := by
    rw [storeNext (by rw [imageLength]; rfl) (by rw [imageLength,sizeofChnid]; omega),imageLength]
    rfl
  have copies := @copyEntriesNext o (encodeHeader o cs.length) (totalSize cs - sizeofMsgList) cs (by omega)
  rw [encodeHeaderLength] at copies
  simp only [createMsgList,memory,if_true,id,count,copies,Option.bind_eq_bind,Option.bind_some]
  rw [← encodeList,unwritten,encodeList,List.length_append,encodeHeaderLength,Nat.sub_sub]

def Fits (c : Channel) : Prop := c.desc.length + 1 < 2^16
instance (c : Channel) : Decidable (Fits c) := inferInstanceAs (Decidable (_ < _))

def header (o : ByteOrder) (c : Channel) : Bytes := image o sizeofChnid c.chnid.toNat ++ image o sizeofLen (c.desc.length + 1)

theorem headerLength (o : ByteOrder) (c : Channel) : (header o c).length = sizeofMsgListentry := by
  simp [header,sizeofMsgListentry]

theorem encodeFits (o : ByteOrder) {c : Channel} (fits : Fits c) : encodeEntry o c = header o c ++ (c.desc ++ [0]) := by
  have len : (createListentry c).len.toNat = c.desc.length + 1 := by rw [lenBelow,Nat.mod_eq_of_lt fits]
  have whole : entrySize (createListentry c) = (memoryOf o (createListentry c)).length := by
    rw [memoryLength,entrySize,len,Nat.add_assoc]
  rw [encodeEntry,whole,List.take_length,memoryOf,len]
  rfl

def size (c : Channel) : Nat := sizeofMsgListentry + (c.desc.length + 1)

theorem encodeFitsLength (o : ByteOrder) {c : Channel} (fits : Fits c) : (encodeEntry o c).length = size c := by
  rw [encodeEntryLength,Nat.mod_eq_of_lt fits]
  rfl

theorem loadAt (o : ByteOrder) {mem before after : Bytes} {n at_ : Nat} (small : n < 2^16) (here : at_ = before.length)
    (parts : mem = before ++ (image o 2 n ++ after)) : load o mem at_ = n := by
  have two : (image o 2 n).length = 2 := imageLength o 2 n
  have front : (image o 2 n ++ after).take 2 = image o 2 n := List.take_left' two
  rw [load,parts,here,List.drop_left,front,valueImage]
  exact Nat.mod_eq_of_lt small

theorem parseEntry (o : ByteOrder) {mem before after : Bytes} {c : Channel} {n currentPos : Nat} (fits : Fits c)
    (here : currentPos = before.length) (parts : mem = before ++ (encodeEntry o c ++ after)) :
    parseEntries o mem (n+1) currentPos =
      (parseEntries o mem n (currentPos + size c)).map fun r => (shownAs c :: r.1,r.2) := by
  have length : mem.length = currentPos + size c + after.length := by
    rw [parts,here,List.length_append,List.length_append,encodeFitsLength o fits]
    omega
  have four : entryDescOffset = 4 := rfl
  have entry : sizeofMsgListentry = 4 := rfl
  have id : load o mem currentPos = c.chnid.toNat := by
    refine @loadAt o mem before (image o sizeofLen (c.desc.length + 1) ++ (c.desc ++ [0]) ++ after) _ _
      c.chnid.toNat_lt here ?_
    rw [parts,encodeFits o fits,header]
    simp only [List.append_assoc]
    rfl
  have len : load o mem (currentPos + entryLenOffset) = c.desc.length + 1 := by
    refine @loadAt o mem (before ++ image o sizeofChnid c.chnid.toNat) (c.desc ++ [0] ++ after) _ _ fits ?_ ?_
    · rw [here,List.length_append,imageLength]
      rfl
    · rw [parts,encodeFits o fits,header]
      simp only [List.append_assoc]
      rfl
  have desc : cString mem (currentPos + entryDescOffset) = some c.desc := by
    have stops := @cStringTerminated (before ++ header o c) c.desc after c.nulFree
    rw [List.length_append,headerLength,← here] at stops
    rw [parts,encodeFits o fits]
    simp only [List.append_assoc,List.cons_append,List.nil_append] at stops ⊢
    exact stops
  have inside : currentPos < mem.length := by rw [length,size]; omega
  have room : currentPos + entryDescOffset ≤ mem.length := by rw [length,size]; omega
  have whole : ¬ mem.length < currentPos + entryDescOffset + (c.desc.length + 1) := by rw [length,size]; omega
  rw [parseEntries,if_pos inside,if_pos room]
  simp only [id,len,if_neg whole,desc,Option.bind_eq_bind,Option.bind_some]
  rw [size]
  cases parseEntries o mem n (currentPos + (sizeofMsgListentry + (c.desc.length + 1))) <;> rfl

theorem parseWhole (o : ByteOrder) {mem before after : Bytes} {cs : List Channel} {n currentPos : Nat}
    (fits : ∀ c ∈ cs, Fits c) (here : currentPos = before.length)
    (parts : mem = before ++ (cs.flatMap (encodeEntry o) ++ after)) :
    parseEntries o mem (n + cs.length) currentPos =
      (parseEntries o mem n (currentPos + (cs.map size).sum)).map fun r => (cs.map shownAs ++ r.1,r.2) := by
  induction cs generalizing before currentPos with
  | nil =>
    simp only [List.length_nil,Nat.add_zero,List.map_nil,List.sum_nil,List.nil_append]
    exact Option.map_id'.symm
  | cons c cs ih =>
    obtain ⟨first,others⟩ := List.forall_mem_cons.mp fits
    rw [List.flatMap_cons,List.append_assoc] at parts
    have rest := @ih (before ++ encodeEntry o c) (currentPos + size c) others
      (by rw [List.length_append,here,encodeFitsLength o first]) (by rw [parts,List.append_assoc])
    rw [List.length_cons,← Nat.add_assoc,parseEntry o first here parts,rest]
    simp only [List.map_cons,List.sum_cons,List.cons_append,← Nat.add_assoc]
    cases parseEntries o mem n (currentPos + size c + (cs.map size).sum) <;> rfl

def cutStatus (r : Nat) : Option (List Shown × Status) :=
  if r = 0 then some ([],.done) else if r < entryDescOffset then none else some ([],.overflow)

theorem parseCut (o : ByteOrder) {mem before : Bytes} {c : Channel} {n currentPos r : Nat} (fits : Fits c)
    (here : currentPos = before.length) (short : r < size c) (parts : mem = before ++ (encodeEntry o c).take r) :
    parseEntries o mem (n+1) currentPos = cutStatus r := by
  have whole := encodeFitsLength o fits
  have length : mem.length = currentPos + r := by
    rw [parts,here,List.length_append,List.length_take]
    omega
  have entry : sizeofMsgListentry = entryDescOffset := rfl
  rw [parseEntries,cutStatus]
  by_cases nothing : r = 0
  · rw [if_neg (by omega),if_pos nothing]
  · rw [if_pos (by omega),if_neg nothing]
    by_cases torn : r < entryDescOffset
    · rw [if_neg (by omega),if_pos torn]
    · have front : (encodeEntry o c).take r = header o c ++ (c.desc ++ [0]).take (r - entryDescOffset) := by
        rw [encodeFits o fits,List.take_append,headerLength,List.take_of_length_le (by rw [headerLength]; omega),entry]
      have len : load o mem (currentPos + entryLenOffset) = c.desc.length + 1 := by
        refine @loadAt o mem (before ++ image o sizeofChnid c.chnid.toNat) ((c.desc ++ [0]).take (r - entryDescOffset))
          _ _ fits ?_ ?_
        · rw [here,List.length_append,imageLength]
          rfl
        · rw [parts,front,header]
          simp only [List.append_assoc]
          rfl
      have behind : mem.length < currentPos + entryDescOffset + (c.desc.length + 1) := by
        rw [length]
        rw [size] at short
        omega
      rw [if_pos (by omega),if_neg torn]
      simp only [len,if_pos behind]

theorem encodeListLength (o : ByteOrder) {cs : List Channel} (fits : ∀ c ∈ cs, Fits c) :
    (cs.flatMap (encodeEntry o)).length = (cs.map size).sum := by
  induction cs with
  | nil => rfl
  | cons c cs ih =>
    obtain ⟨first,others⟩ := List.forall_mem_cons.mp fits
    rw [List.flatMap_cons,List.length_append,encodeFitsLength o first,ih others,List.map_cons,List.sum_cons]

theorem parseHeader (o : ByteOrder) {count : Nat} (small : count < 2^16) (after : Bytes) :
    parseMsgList o (encodeHeader o count ++ after) =
      (parseEntries o (encodeHeader o count ++ after) count sizeofMsgList).map fun r => .listed 0 count r.1 r.2 := by
  have long : ¬ (encodeHeader o count ++ after).length < sizeofMsgList := by
    rw [List.length_append,encodeHeaderLength]
    omega
  have id : load o (encodeHeader o count ++ after) 0 = 0 := by
    refine @loadAt o _ [] (image o 2 count ++ after) _ _ (by decide : listchnid < 2^16) rfl ?_
    rw [encodeHeader,List.append_assoc]
    rfl
  have number : load o (encodeHeader o count ++ after) entryCountOffset = count := by
    refine @loadAt o _ (image o sizeofChnid listchnid) after _ _ small (by rw [imageLength]; rfl) ?_
    rw [encodeHeader,List.append_assoc]
  rw [parseMsgList,if_neg long,id,number]
  simp only [Option.bind_eq_bind]
  cases parseEntries o (encodeHeader o count ++ after) count sizeofMsgList <;> rfl

/- A message cut anywhere behind its header: the entries before the cut are shown as they
are, and the parser goes behind the buffer where the cut leaves a part of an entry's header. -/
theorem cutParsed (o : ByteOrder) {before after : List Channel} {c : Channel} {r : Nat}
    (number : (before ++ c :: after).length < 2^16) (fits : ∀ d ∈ before ++ c :: after, Fits d) (short : r < size c) :
    parseMsgList o ((encodeList o (before ++ c :: after)).take (sizeofMsgList + (before.map size).sum + r)) =
      (cutStatus r).map fun s => .listed 0 (before ++ c :: after).length (before.map shownAs) s.2 := by
  have mine : Fits c := fits c (by simp)
  have firsts : ∀ d ∈ before, Fits d := fun d member => fits d (List.mem_append_left _ member)
  have front : (before.flatMap (encodeEntry o)).length = (before.map size).sum := encodeListLength o firsts
  have cut : (encodeList o (before ++ c :: after)).take (sizeofMsgList + (before.map size).sum + r) =
      encodeHeader o (before ++ c :: after).length ++ (before.flatMap (encodeEntry o) ++ (encodeEntry o c).take r) := by
    have inside : r - (encodeEntry o c).length = 0 := by
      rw [encodeFitsLength o mine]
      omega
    rw [encodeList,List.flatMap_append,List.flatMap_cons,Nat.add_assoc,← encodeHeaderLength o (before ++ c :: after).length,
      List.take_length_add_append,← front,List.take_length_add_append,List.take_append,inside,List.take_zero,
      List.append_nil]
  have left : (before ++ c :: after).length = after.length + 1 + before.length := by
    rw [List.length_append,List.length_cons]
    omega
  rw [cut,parseHeader o number]
  have shown := @parseWhole o _ (encodeHeader o (before ++ c :: after).length) ((encodeEntry o c).take r) before
    (after.length + 1) sizeofMsgList firsts (encodeHeaderLength o _).symm rfl
  have last := @parseCut o (encodeHeader o (before ++ c :: after).length ++
      (before.flatMap (encodeEntry o) ++ (encodeEntry o c).take r))
    (encodeHeader o (before ++ c :: after).length ++ before.flatMap (encodeEntry o)) c after.length
    (sizeofMsgList + (before.map size).sum) r mine
    (by rw [List.length_append,encodeHeaderLength,front]) short (List.append_assoc _ _ _).symm
  rw [← left,last] at shown
  rw [shown,cutStatus]
  split
  · simp
  · split
    · rfl
    · simp

theorem loadSmall (o : ByteOrder) (mem : Bytes) (at_ : Nat) : load o mem at_ < 2^16 := by
  have width : ((mem.drop at_).take 2).length ≤ 2 := by
    rw [List.length_take]
    omega
  have round := valueImage o ((mem.drop at_).take 2).length (load o mem at_)
  rw [load,imageValue o rfl] at round
  rw [load,round]
  refine Nat.lt_of_lt_of_le (Nat.mod_lt _ (Nat.pow_pos (by decide))) ?_
  exact Nat.pow_le_pow_right (by decide) width

theorem loadImage (o : ByteOrder) {mem : Bytes} {at_ : Nat} (inside : at_ + 2 ≤ mem.length) :
    image o 2 (load o mem at_) = (mem.drop at_).take 2 := by
  refine imageValue o ?_
  rw [List.length_take,List.length_drop]
  omega

theorem cStringMemory {mem desc : Bytes} {start : Nat} (read : cString mem start = some desc) :
    (0 : UInt8) ∉ desc ∧ ∃ after, mem.drop start = desc ++ 0 :: after := by
  have member : 0 ∈ mem.drop start := by
    rw [cString] at read
    split at read <;> try contradiction
    assumption
  obtain ⟨s,after,parts,nulFree⟩ := List.eq_append_cons_of_mem member
  have inside : start ≤ mem.length := by
    have length := congrArg List.length parts
    rw [List.length_drop,List.length_append,List.length_cons] at length
    omega
  have stops := @cStringTerminated (mem.take start) s after nulFree
  rw [← parts,List.take_append_drop,List.length_take_of_le inside,read] at stops
  cases Option.some.inj stops
  exact ⟨nulFree,after,parts⟩

theorem entryAccepted (o : ByteOrder) {mem desc : Bytes} {currentPos : Nat}
    (room : currentPos + entryDescOffset ≤ mem.length)
    (read : cString mem (currentPos + entryDescOffset) = some desc)
    (ends : desc.length + 1 = load o mem (currentPos + entryLenOffset)) :
    ∃ c, Fits c ∧ shownAs c = ⟨load o mem currentPos,load o mem (currentPos + entryLenOffset),desc⟩ ∧
      ∃ after, mem.drop currentPos = encodeEntry o c ++ after ∧ mem.drop (currentPos + size c) = after := by
  obtain ⟨nulFree,after,here⟩ := cStringMemory read
  have idSmall := loadSmall o mem currentPos
  have lenSmall := loadSmall o mem (currentPos + entryLenOffset)
  have id : (UInt16.ofNat (load o mem currentPos)).toNat = load o mem currentPos := UInt16.toNat_ofNat_of_lt' idSmall
  have fits : Fits ⟨UInt16.ofNat (load o mem currentPos),desc,nulFree⟩ := by
    rw [Fits,ends]
    exact lenSmall
  have lenOffset : entryLenOffset = 2 := rfl
  have descOffset : entryDescOffset = 4 := rfl
  have front : mem.drop currentPos = image o sizeofChnid (load o mem currentPos) ++
      (image o sizeofLen (load o mem (currentPos + entryLenOffset)) ++ mem.drop (currentPos + entryDescOffset)) := by
    have second := (List.take_append_drop 2 (mem.drop (currentPos + 2))).symm
    have first := (List.take_append_drop 2 (mem.drop currentPos)).symm
    rw [List.drop_drop] at first second
    rw [sizeofChnid,sizeofLen,loadImage o (by omega),loadImage o (by omega),lenOffset,descOffset,← second]
    exact first
  refine ⟨_,fits,by rw [shownAs,id,ends],after,?_,?_⟩
  · rw [encodeFits o fits,header,id,front,here,ends]
    simp only [List.append_assoc,List.cons_append,List.nil_append]
  · have step : currentPos + size ⟨UInt16.ofNat (load o mem currentPos),desc,nulFree⟩ =
        currentPos + entryDescOffset + (desc.length + 1) := by
      simp only [size,sizeofMsgListentry,descOffset,sizeofChnid,sizeofLen]
      omega
    rw [step,← List.drop_drop,here,List.drop_append,List.drop_of_length_le (by omega)]
    simp

theorem passShows {o : ByteOrder} {mem : Bytes} {n currentPos : Nat} {shown : List Shown} {status : Status}
    (parsed : parseEntries o mem (n+1) currentPos = some (shown,status)) (some_ : shown ≠ []) :
    ∃ desc rest, currentPos + entryDescOffset ≤ mem.length ∧ cString mem (currentPos + entryDescOffset) = some desc ∧
      parseEntries o mem n (currentPos + (sizeofMsgListentry + load o mem (currentPos + entryLenOffset))) =
        some (rest,status) ∧
      shown = ⟨load o mem currentPos,load o mem (currentPos + entryLenOffset),desc⟩ :: rest := by
  rw [parseEntries] at parsed
  split at parsed
  · split at parsed <;> try contradiction
    rename_i room
    simp only at parsed
    split at parsed
    · cases Option.some.inj parsed
      contradiction
    · obtain ⟨desc,read,parsed⟩ := Option.bind_eq_some_iff.mp parsed
      obtain ⟨⟨rest,last⟩,later,parsed⟩ := Option.bind_eq_some_iff.mp parsed
      cases Option.some.inj parsed
      exact ⟨desc,rest,room,read,later,rfl⟩
  · cases Option.some.inj parsed
    contradiction

theorem walkAccepted (o : ByteOrder) {mem : Bytes} {n currentPos : Nat} {shown : List Shown} {status : Status}
    (parsed : parseEntries o mem n currentPos = some (shown,status)) (all : shown.length = n)
    (ends : ∀ s ∈ shown, s.desc.length + 1 = s.len) :
    ∃ cs : List Channel, (∀ c ∈ cs, Fits c) ∧ cs.map shownAs = shown ∧
      ∃ after, mem.drop currentPos = cs.flatMap (encodeEntry o) ++ after := by
  induction n generalizing currentPos shown with
  | zero =>
    cases List.eq_nil_of_length_eq_zero all
    exact ⟨[],by simp,rfl,mem.drop currentPos,rfl⟩
  | succ n ih =>
    obtain ⟨desc,rest,room,read,later,rfl⟩ := passShows parsed (List.ne_nil_of_length_eq_add_one all)
    obtain ⟨first,others⟩ := List.forall_mem_cons.mp ends
    obtain ⟨c,fits,mine,after,here,step⟩ := entryAccepted o room read first
    have length : load o mem (currentPos + entryLenOffset) = c.desc.length + 1 := (congrArg Shown.len mine).symm
    rw [length] at later
    obtain ⟨cs,fit,shows_,tail,behind⟩ := ih later (Nat.succ.inj all) others
    refine ⟨c :: cs,List.forall_mem_cons.mpr ⟨fits,fit⟩,by rw [List.map_cons,mine,shows_],tail,?_⟩
    rw [here,← step,size,behind,List.flatMap_cons,List.append_assoc]

theorem shownBelow {o : ByteOrder} {mem : Bytes} {n currentPos : Nat} {shown : List Shown} {status : Status}
    (parsed : parseEntries o mem n currentPos = some (shown,status)) : ∀ s ∈ shown, s.len < 2^16 := by
  induction n generalizing currentPos shown with
  | zero => cases Option.some.inj parsed; simp
  | succ n ih =>
    by_cases none_ : shown = []
    · rw [none_]
      simp
    · obtain ⟨desc,rest,_,_,later,rfl⟩ := passShows parsed none_
      exact List.forall_mem_cons.mpr ⟨loadSmall o mem _,ih later⟩

theorem parsedSource {o : ByteOrder} {mem : Bytes} {chnid count : Nat} {shown : List Shown} {status : Status}
    (parsed : parseMsgList o mem = some (.listed chnid count shown status)) :
    sizeofMsgList ≤ mem.length ∧ load o mem 0 = chnid ∧ load o mem entryCountOffset = count ∧
      parseEntries o mem count sizeofMsgList = some (shown,status) := by
  rw [parseMsgList] at parsed
  split at parsed
  · cases Option.some.inj parsed
  · rename_i long
    obtain ⟨⟨shown,status⟩,walked,parsed⟩ := Option.bind_eq_some_iff.mp parsed
    cases Option.some.inj parsed
    exact ⟨Nat.not_lt.mp long,rfl,rfl,walked⟩

theorem encodedParsed (o : ByteOrder) {cs : List Channel} (number : cs.length < 2^16) (fits : ∀ c ∈ cs, Fits c)
    (after : Bytes) : parseMsgList o (encodeList o cs ++ after) = some (.listed 0 cs.length (cs.map shownAs) .done) := by
  have shown := @parseWhole o _ (encodeHeader o cs.length) after cs 0 sizeofMsgList fits (encodeHeaderLength o _).symm rfl
  rw [Nat.zero_add] at shown
  rw [encodeList,List.append_assoc,parseHeader o number,shown]
  simp [parseEntries]

/- What create_msg_list writes is what parse_msg_list shows, exactly as long as 16 bits are
enough for the count and for every length; what malloc left behind the last entry does
not matter. -/
theorem flexibleRoundTrip (o : ByteOrder) {mallocs : Mallocs} (cs : List Channel) {heap : Bytes}
    (memory : (mallocs.temp && (List.range cs.length).all mallocs.entry && mallocs.buffer) = true)
    (left : heap.length = unwritten o cs) :
    createMsgList o mallocs cs = some (some (filled (encodeList o cs) heap.length)) ∧
    (parseMsgList o (encodeList o cs ++ heap) = some (.listed 0 cs.length (cs.map shownAs) .done) ↔
      cs.length < 2^16 ∧ ∀ c ∈ cs, c.desc.length + 1 < 2^16) := by
  refine ⟨by rw [left]; exact createFills o memory,?_⟩
  constructor
  · intro parsed
    obtain ⟨_,_,count,walked⟩ := parsedSource parsed
    refine ⟨by rw [← count]; exact loadSmall o _ _,fun c member => ?_⟩
    exact shownBelow walked (shownAs c) (List.mem_map_of_mem member)
  · intro both
    exact encodedParsed o both.1 both.2 heap

theorem flexibleAccepted (o : ByteOrder) (mem : Bytes) (shown : List Shown) :
    (parseMsgList o mem = some (.listed 0 shown.length shown .done) ∧ ∀ s ∈ shown, s.desc.length + 1 = s.len) ↔
      ∃ (cs : List Channel) (after : Bytes), mem = encodeList o cs ++ after ∧ cs.length < 2^16 ∧
        (∀ c ∈ cs, c.desc.length + 1 < 2^16) ∧ cs.map shownAs = shown := by
  constructor
  · intro both
    obtain ⟨long,id,count,walked⟩ := parsedSource both.1
    obtain ⟨cs,fits,shows_,after,behind⟩ := walkAccepted o walked rfl both.2
    have number : cs.length = shown.length := by rw [← shows_,List.length_map]
    refine ⟨cs,after,?_,by rw [number,← count]; exact loadSmall o _ _,fits,shows_⟩
    have four : sizeofMsgList = 4 := rfl
    have head : encodeHeader o cs.length = mem.take sizeofMsgList := by
      have first := @loadImage o mem 0 (by omega)
      have second := @loadImage o mem entryCountOffset (by rw [four] at long; exact long)
      rw [id,List.drop_zero] at first
      rw [count,← number] at second
      rw [encodeHeader,sizeofChnid,listchnid,first,second]
      exact (@List.take_add _ mem 2 2).symm
    rw [encodeList,head,List.append_assoc,← behind,List.take_append_drop]
  · intro source
    obtain ⟨cs,after,rfl,number,fits,rfl⟩ := source
    rw [List.length_map]
    refine ⟨encodedParsed o number fits after,fun s member => ?_⟩
    obtain ⟨c,_,rfl⟩ := List.mem_map.mp member
    rfl

def pop : Channel := ⟨1,[112,111,112],by decide⟩
def news : Channel := ⟨258,[110],by decide⟩

theorem popAndNews :
    createMsgList .little ⟨true,fun _ => true,true⟩ [pop,news] = some (some (filled (encodeList .little [pop,news]) 0)) ∧
    (parseMsgList .little (encodeList .little [pop,news] ++ []) =
        some (.listed 0 2 [⟨1,4,[112,111,112]⟩,⟨258,2,[110]⟩] .done) ↔
      [pop,news].length < 2^16 ∧ ∀ c ∈ [pop,news], c.desc.length + 1 < 2^16) :=
  @flexibleRoundTrip .little ⟨true,fun _ => true,true⟩ [pop,news] [] (by decide) (by decide)

theorem sampleCut :
    parseMsgList .little ((encodeList .little [pop,news]).take 14) = none ∧
    parseMsgList .little ((encodeList .little [pop,news]).take 17) =
      some (.listed 0 2 [⟨1,4,[112,111,112]⟩] .overflow) :=
  ⟨@cutParsed .little [pop] [] news 2 (by decide) (by decide) (by decide),
    @cutParsed .little [pop] [] news 5 (by decide) (by decide) (by decide)⟩

end IPv4Media.FlexibleList
