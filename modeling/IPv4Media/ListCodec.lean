import IPv4Media.MediaLibrary
import IPv4Media.Socket

/-! The programme list on the wire: the buffer thr_list fills (thr_list.c) and the
walk of the client's main over what it received (client.c). -/
namespace IPv4Media.ListCodec
open Octets Proto MediaLibrary

def entrySize (e : MlibListentry) : Nat := sizeofMsgListentry + e.desc.length

def totalsize (entries : List MlibListentry) : Nat :=
  entries.foldl (fun total e => total + entrySize e) sizeofChnid

def htons (o : ByteOrder) (n : Nat) : Nat := swapped o sizeofLen n
def ntohs (o : ByteOrder) (n : Nat) : Nat := swapped o sizeofLen n

def fillEntry (o : ByteOrder) (m : Cells) (entryptr : Nat) (e : MlibListentry) : Option Cells := do
  let m ← store m entryptr [e.chnid]
  let m ← store m (entryptr + entryLenOffset) (image o sizeofLen (htons o (entrySize e)))
  store m (entryptr + entryDescOffset) (e.desc ++ [0])

def fillEntries (o : ByteOrder) : Cells → Nat → List MlibListentry → Option Cells
  | m, _, [] => some m
  | m, entryptr, e :: entries => do
    let m ← fillEntry o m entryptr e
    fillEntries o m (entryptr + entrySize e) entries

/- The buffer after malloc(totalsize) and the loop over the entries. -/
def thrListBuffer (o : ByteOrder) (entries : List MlibListentry) : Option Cells := do
  let m ← store (fresh (totalsize entries)) 0 [listchnid]
  fillEntries o m listEntryOffset entries

/- One pass of the client's loop: what printf is given, and the step to the next entry. -/
structure Visit where
  pos : Nat
  chnid : UInt8
  desc : Bytes
  deriving DecidableEq, Repr

def visit (o : ByteOrder) (mem : Bytes) (pos : Nat) : Option (Visit × Nat) :=
  if pos + entryDescOffset ≤ mem.length then do
    let desc ← cString mem (pos + entryDescOffset)
    some (⟨pos,mem.getD pos 0,desc⟩,ntohs o (value o ((mem.drop (pos + entryLenOffset)).take sizeofLen)))
  else none

def walk (o : ByteOrder) (mem : Bytes) (len : Int) : Nat → Nat → Option (List Visit × Nat)
  | 0, _ => none
  | n+1, pos =>
    if (pos : Int) < len then do
      let (v,step) ← visit o mem pos
      let (rest,last) ← walk o mem len n (pos + step)
      some (v :: rest,last)
    else some ([],pos)

def encodeEntry (e : MlibListentry) : Bytes :=
  [e.chnid] ++ image .big sizeofLen (entrySize e) ++ (e.desc ++ [0])

def encodeList (entries : List MlibListentry) : Bytes := listchnid :: entries.flatMap encodeEntry

@[simp] theorem encodeEntryLength (e : MlibListentry) : (encodeEntry e).length = entrySize e := by
  simp [encodeEntry,entrySize,sizeofMsgListentry,entryDescOffset,sizeofChnid]
  omega

theorem totalsizeEncoded (entries : List MlibListentry) : totalsize entries = (encodeList entries).length := by
  have grown : ∀ total, entries.foldl (fun total e => total + entrySize e) total =
      total + (entries.flatMap encodeEntry).length := by
    induction entries with
    | nil => simp
    | cons e entries ih =>
      intro total
      simp only [List.foldl_cons,ih,List.flatMap_cons,List.length_append,encodeEntryLength]
      omega
  rw [totalsize,grown,encodeList,List.length_cons,sizeofChnid]
  omega

theorem htonsImage (o : ByteOrder) (n : Nat) : image o sizeofLen (htons o n) = image .big sizeofLen n :=
  imageSwapped o sizeofLen n

theorem fillEntryNext {o : ByteOrder} {done : Bytes} {rest : Nat} (e : MlibListentry) (room : entrySize e ≤ rest) :
    fillEntry o (filled done rest) done.length e =
      some (filled (done ++ encodeEntry e) (rest - entrySize e)) := by
  have size : entrySize e = 1 + 2 + (e.desc.length + 1) := by
    simp only [entrySize,sizeofMsgListentry,entryDescOffset,sizeofChnid,sizeofLen]
    omega
  have id : store (filled done rest) done.length [e.chnid] = some (filled (done ++ [e.chnid]) (rest - 1)) :=
    storeNext rfl (by rw [List.length_singleton]; omega)
  have len : store (filled (done ++ [e.chnid]) (rest - 1)) (done.length + entryLenOffset)
      (image .big sizeofLen (entrySize e)) =
      some (filled (done ++ [e.chnid] ++ image .big sizeofLen (entrySize e)) (rest - 1 - 2)) := by
    rw [storeNext (by rw [List.length_append]; rfl) (by rw [imageLength,sizeofLen]; omega),imageLength]
    rfl
  have desc : store (filled (done ++ [e.chnid] ++ image .big sizeofLen (entrySize e)) (rest - 1 - 2))
      (done.length + entryDescOffset) (e.desc ++ [0]) =
      some (filled (done ++ encodeEntry e) (rest - entrySize e)) := by
    rw [storeNext (by simp only [List.length_append,List.length_singleton,imageLength]; rfl)
      (by rw [List.length_append,List.length_singleton]; omega),encodeEntry,size]
    simp only [List.append_assoc,List.length_append,List.length_singleton,Nat.sub_sub]
  simp only [fillEntry,htonsImage,id,len,desc,Option.bind_eq_bind,Option.bind_some]

theorem fillEntriesNext {o : ByteOrder} {done : Bytes} {rest : Nat} (entries : List MlibListentry)
    (room : (entries.flatMap encodeEntry).length ≤ rest) :
    fillEntries o (filled done rest) done.length entries =
      some (filled (done ++ entries.flatMap encodeEntry) (rest - (entries.flatMap encodeEntry).length)) := by
  induction entries generalizing done rest with
  | nil => simp [fillEntries]
  | cons e entries ih =>
    rw [List.flatMap_cons,List.length_append,encodeEntryLength] at room
    have tail := @ih (done ++ encodeEntry e) (rest - entrySize e) (by omega)
    rw [List.length_append,encodeEntryLength] at tail
    simp only [fillEntries,fillEntryNext e (by omega : entrySize e ≤ rest),Option.bind_eq_bind,Option.bind_some,
      tail,List.flatMap_cons,List.append_assoc,List.length_append,encodeEntryLength,Nat.sub_sub]

theorem thrListFilled (o : ByteOrder) (entries : List MlibListentry) :
    thrListBuffer o entries = some (filled (encodeList entries) 0) := by
  have size := totalsizeEncoded entries
  rw [encodeList,List.length_cons] at size
  have head : store (filled [] (totalsize entries)) 0 [listchnid] =
      some (filled [listchnid] (totalsize entries - 1)) :=
    storeNext rfl (by rw [List.length_singleton]; omega)
  have body := @fillEntriesNext o [listchnid] (totalsize entries - 1) entries (by omega)
  rw [List.length_singleton] at body
  have all : totalsize entries - 1 - (entries.flatMap encodeEntry).length = 0 := by omega
  rw [all] at body
  have start : fresh (totalsize entries) = filled [] (totalsize entries) := rfl
  simp only [thrListBuffer,start,head,Option.bind_eq_bind,Option.bind_some,listEntryOffset,sizeofChnid,body]
  rfl

def visitsFrom (pos : Nat) : List MlibListentry → List Visit
  | [] => []
  | e :: entries => ⟨pos,e.chnid,e.desc⟩ :: visitsFrom (pos + entrySize e) entries

theorem visitsEntries (pos : Nat) (entries : List MlibListentry) :
    (visitsFrom pos entries).map (fun v => (v.chnid,v.desc)) = entries.map fun e => (e.chnid,e.desc) := by
  induction entries generalizing pos with
  | nil => rfl
  | cons e entries ih => simp only [visitsFrom,List.map_cons,ih]

theorem visitEntry (o : ByteOrder) {before after : Bytes} {e : MlibListentry}
    (short : entrySize e < 256^sizeofLen) :
    visit o (before ++ (encodeEntry e ++ after)) before.length =
      some (⟨before.length,e.chnid,e.desc⟩,entrySize e) := by
  have width : (image .big sizeofLen (entrySize e)).length = sizeofLen := imageLength .big _ _
  have inside : before.length + entryDescOffset ≤ (before ++ (encodeEntry e ++ after)).length := by
    simp only [List.length_append,encodeEntryLength,entrySize,sizeofMsgListentry]
    omega
  have id : (before ++ (encodeEntry e ++ after)).getD before.length 0 = e.chnid := by
    simp [encodeEntry,List.getD]
  have len : ((before ++ (encodeEntry e ++ after)).drop (before.length + entryLenOffset)).take sizeofLen =
      image .big sizeofLen (entrySize e) := by
    have split : before ++ (encodeEntry e ++ after) =
        (before ++ [e.chnid]) ++ (image .big sizeofLen (entrySize e) ++ (e.desc ++ 0 :: after)) := by
      simp [encodeEntry,List.append_assoc]
    have start : before.length + entryLenOffset = (before ++ [e.chnid]).length := by
      rw [List.length_append]
      rfl
    rw [split,start,List.drop_left]
    exact List.take_left' width
  have desc : cString (before ++ (encodeEntry e ++ after)) (before.length + entryDescOffset) = some e.desc := by
    have split : before ++ (encodeEntry e ++ after) =
        (before ++ [e.chnid] ++ image .big sizeofLen (entrySize e)) ++ (e.desc ++ 0 :: after) := by
      simp [encodeEntry,List.append_assoc]
    have start : before.length + entryDescOffset =
        (before ++ [e.chnid] ++ image .big sizeofLen (entrySize e)).length := by
      simp only [List.length_append,width]
      rfl
    rw [split,start]
    exact cStringTerminated e.nulFree
  have step : ntohs o (value o (image .big sizeofLen (entrySize e))) = entrySize e := by
    rw [ntohs,swappedValue o width,valueImage]
    exact Nat.mod_eq_of_lt short
  rw [visit,if_pos inside,desc,id,len,step]
  rfl

theorem walkEntries (o : ByteOrder) {before after : Bytes} (entries : List MlibListentry)
    (short : ∀ e ∈ entries, entrySize e < 256^sizeofLen) :
    walk o (before ++ (entries.flatMap encodeEntry ++ after))
      ((before.length + (entries.flatMap encodeEntry).length : Nat) : Int) (entries.length + 1) before.length =
      some (visitsFrom before.length entries,before.length + (entries.flatMap encodeEntry).length) := by
  induction entries generalizing before with
  | nil => simp [walk,visitsFrom]
  | cons e entries ih =>
    have positive : 0 < entrySize e := by
      simp only [entrySize,sizeofMsgListentry]
      omega
    have further : (before.length : Int) <
        ((before.length + ((e :: entries).flatMap encodeEntry).length : Nat) : Int) := by
      rw [List.flatMap_cons,List.length_append,encodeEntryLength]
      omega
    have here := @visitEntry o before (entries.flatMap encodeEntry ++ after) e (short e (List.mem_cons_self))
    have rest := @ih (before ++ encodeEntry e) (fun other member => short other (List.mem_cons_of_mem e member))
    simp only [List.length_append,encodeEntryLength,List.append_assoc] at rest
    simp only [List.flatMap_cons,List.length_append,encodeEntryLength,List.append_assoc,List.length_cons,
      ← Nat.add_assoc] at further rest here ⊢
    rw [walk,if_pos further,here]
    simp only [Option.bind_eq_bind,Option.bind_some,rest,visitsFrom]

theorem entryWithin {entries : List MlibListentry} {e} (member : e ∈ entries) :
    entrySize e ≤ (entries.flatMap encodeEntry).length := by
  obtain ⟨before,after,rfl⟩ := List.append_of_mem member
  simp only [List.flatMap_append,List.flatMap_cons,List.length_append,encodeEntryLength]
  omega

theorem entriesShort {entries : List MlibListentry} (fits : totalsize entries ≤ msgListMax) :
    ∀ e ∈ entries, entrySize e < 256^sizeofLen := by
  intro e member
  have within := entryWithin member
  have size := totalsizeEncoded entries
  rw [encodeList,List.length_cons] at size
  simp only [msgListMax,sizeofLen] at fits ⊢
  omega

theorem walkDelivered (o : ByteOrder) {entries : List MlibListentry} (fits : totalsize entries ≤ msgListMax)
    (heap : Bytes) :
    walk o (Socket.deliver heap (encodeList entries)) (encodeList entries).length (entries.length + 1) listEntryOffset =
      some (visitsFrom listEntryOffset entries,(encodeList entries).length) := by
  have walked := @walkEntries o [listchnid] (heap.drop (encodeList entries).length) entries (entriesShort fits)
  rw [List.length_singleton,Nat.add_comm 1] at walked
  exact walked

/- The last number is where the walk stops. -/
theorem listRoundTrip (server client : ByteOrder) {entries : List MlibListentry}
    (fits : totalsize entries ≤ msgListMax) (heap : Bytes) :
    ∃ bytes : Bytes, thrListBuffer server entries = some (bytes.map some) ∧
      bytes.length = totalsize entries ∧ ∃ visits : List Visit,
        walk client (Socket.deliver heap bytes) bytes.length (entries.length + 1) listEntryOffset =
          some (visits,totalsize entries) ∧
        visits.map (fun v => (v.chnid,v.desc)) = entries.map fun e => (e.chnid,e.desc) := by
  have size := totalsizeEncoded entries
  have walked := walkDelivered client fits heap
  refine ⟨encodeList entries,?_,size.symm,visitsFrom listEntryOffset entries,?_,visitsEntries _ _⟩
  · rw [thrListFilled]
    simp [filled,fresh]
  · rw [size]
    exact walked

def sampleEntries : List MlibListentry := [⟨1,[74,97,122,122,10],by decide⟩,⟨2,[],by decide⟩]

theorem sampleRoundTrip : ∃ bytes : Bytes, thrListBuffer .little sampleEntries = some (bytes.map some) ∧
    bytes.length = 14 ∧ ∃ visits : List Visit,
      walk .big (Socket.deliver [9,9] bytes) bytes.length 3 1 = some (visits,14) ∧
      visits.map (fun v => (v.chnid,v.desc)) = [(1,[74,97,122,122,10]),(2,[])] :=
  @listRoundTrip .little .big sampleEntries (by decide) [9,9]

end IPv4Media.ListCodec
