import IPv4Media.Formats

/-! From the scan to the list datagram: thr_list_create, thr_list and the one sendto
(thr_list.c). No length is checked on the way. One UDP datagram over IPv4 takes 65507
octets, one less than MSG_LIST_MAX says. -/
namespace IPv4Media.ListPublication
open Octets Proto Playlist MediaLibrary ListCodec ListReception Formats

variable {φ : Type}

def udpPayloadMax : Nat := 2^16 - 1 - 20 - 8

/- The entries of list_entry that the start-up reads: the one thr_list_create logs, then
all num_ent for the size and all again for the datagram. -/
def thrListSubscripts (numEnt : Nat) : List Nat := 0 :: (List.range numEnt ++ List.range numEnt)

structure Publishable (o : ByteOrder) (entries : List MlibListentry) : Prop where
  inside : ∀ i ∈ thrListSubscripts entries.length, i < entries.length
  long : sizeofMsgList ≤ (listOctets o entries).length
  taken : takenForList (listOctets o entries) = true
  sendable : (listOctets o entries).length ≤ udpPayloadMax

theorem totalsizeSum (entries : List MlibListentry) :
    totalsize entries = sizeofChnid + sizeofMsgListentry * entries.length +
      (entries.map fun e => e.desc.length).sum := by
  have grown : ∀ total, entries.foldl (fun total e => total + entrySize e) total =
      total + sizeofMsgListentry * entries.length + (entries.map fun e => e.desc.length).sum := by
    induction entries with
    | nil => simp
    | cons e entries ih =>
      intro total
      rw [List.foldl_cons,ih,List.length_cons,List.map_cons,List.sum_cons,entrySize,Nat.mul_succ]
      omega
  exact grown sizeofChnid

theorem publishableSize (o : ByteOrder) (entries : List MlibListentry) :
    Publishable o entries ↔ entries ≠ [] ∧ totalsize entries ≤ udpPayloadMax := by
  have size : (listOctets o entries).length = totalsize entries := by
    rw [listOctetsEncoded,totalsizeEncoded]
  constructor
  · intro publishable
    have first := publishable.inside 0 (List.mem_cons_self)
    have short := publishable.sendable
    rw [size] at short
    exact ⟨List.length_pos_iff.mp first,short⟩
  · rintro ⟨some_,short⟩
    have positive := List.length_pos_iff.mpr some_
    have long : sizeofMsgList ≤ totalsize entries := by
      rw [totalsizeSum]
      simp only [sizeofMsgList,listEntryOffset,sizeofMsgListentry,entryDescOffset,sizeofChnid,sizeofLen]
      omega
    have first : (listOctets o entries).getD 0 0 = listchnid := by
      rw [listOctetsEncoded]
      rfl
    refine ⟨?_,by rw [size]; exact long,?_,by rw [size]; exact short⟩
    · intro i member
      rcases List.mem_cons.mp member with rfl | later
      · exact positive
      · rcases List.mem_append.mp later with here | here <;> exact List.mem_range.mp here
    · rw [takenForList,size]
      exact decide_eq_true ⟨long,first⟩

theorem fgetsShort {size : Nat} {text line : Bytes} (got : fgets size text = some line) : line.length ≤ size - 1 := by
  unfold fgets at got
  split at got
  · cases got
  · cases Option.some.inj got
    rw [List.length_take]
    exact Nat.min_le_left _ _

theorem strdupShort (s : Bytes) : (strdup s).length ≤ s.length := (List.takeWhile_sublist _).length_le

theorem entryDesc {lib lib' : MediaLib φ} {d me} (h : path2entry lib d = some (some me,lib')) :
    me.desc.length ≤ lineBufSize - 1 := by
  unfold path2entry at h
  split at h
  · cases Option.some.inj h
  · rename_i linebuf line
    obtain ⟨text,_,got⟩ := Option.bind_eq_some_iff.mp line
    have short := Nat.le_trans (strdupShort linebuf) (fgetsShort got)
    split at h
    · obtain ⟨⟨tbf,mod⟩,_,h⟩ := Option.bind_eq_some_iff.mp h
      cases tbf with
      | none => cases Option.some.inj h
      | some tbf =>
        simp only at h
        split at h
        · cases Option.some.inj h
        · split at h
          · cases Option.some.inj h
          · cases Option.some.inj h
            exact short
    · cases Option.some.inj h

theorem scanDescs {lib : MediaLib φ} {dirs r} (h : scan lib dirs = some r) :
    ∀ e ∈ r.entries, e.desc.length ≤ lineBufSize - 1 := by
  induction dirs generalizing lib r with
  | nil =>
    cases Option.some.inj h
    exact fun e member => absurd member List.not_mem_nil
  | cons d dirs ih =>
    unfold scan at h
    obtain ⟨⟨res,lib'⟩,entered,h⟩ := Option.bind_eq_some_iff.mp h
    cases res with
    | none => exact ih h
    | some me =>
      obtain ⟨rest,scanned,last⟩ := Option.bind_eq_some_iff.mp h
      cases Option.some.inj last
      intro e member
      rcases List.mem_cons.mp member with rfl | later
      · exact Nat.le_trans (strdupShort me.desc) (entryDesc entered)
      · exact ih scanned e later

/- totalsize is an int in thr_list. With CHANNUM channels it cannot overflow. -/
theorem totalsizeInt {entries : List MlibListentry} (few : entries.length ≤ channum)
    (short : ∀ e ∈ entries, e.desc.length ≤ lineBufSize - 1) : totalsize entries < 2^31 := by
  have text : (entries.map fun e => e.desc.length).sum ≤ entries.length * (lineBufSize - 1) := by
    have bound := List.sum_le_card_nsmul (entries.map fun e => e.desc.length) (lineBufSize - 1) ?_
    · simpa using bound
    · intro n member
      obtain ⟨e,inside,rfl⟩ := List.mem_map.mp member
      exact short e inside
  have most := Nat.mul_le_mul_right (lineBufSize - 1) few
  rw [totalsizeSum]
  simp only [sizeofMsgListentry,entryDescOffset,sizeofChnid,sizeofLen,channum,lineBufSize] at few text most ⊢
  omega

/- What thr_list computes is the sum on the right: the second part says that its int
does not overflow on any list the scan can return for CHANNUM channels. -/
theorem listPublishable {lib : MediaLib φ} {dirs r} (ok : mlibGetchnlist lib (some dirs) = some (0,r))
    (few : r.entries.length ≤ channum) (o : ByteOrder) :
    (Publishable o r.entries ↔
      r.entries ≠ [] ∧ 1 + 4 * r.entries.length + (r.entries.map fun e => e.desc.length).sum ≤ udpPayloadMax) ∧
    totalsize r.entries < 2^31 := by
  obtain ⟨scanned,h,last⟩ := Option.bind_eq_some_iff.mp ok
  obtain ⟨_,rfl⟩ := Prod.mk.inj (Option.some.inj last)
  constructor
  · rw [publishableSize,totalsizeSum]
    rfl
  · exact totalsizeInt few (scanDescs h)

def jazzDir : MediaDir Nat := ⟨some [74,10],true,⟨true,true,true⟩,[[1]],some 3⟩
def bareDir : MediaDir Nat := ⟨none,true,⟨true,true,true⟩,[[1]],some 3⟩

theorem onePublishable : ∃ r, mlibGetchnlist unscanned (some [jazzDir,bareDir]) = some (0,r) ∧
    Publishable .little r.entries := by
  refine ⟨_,rfl,?_⟩
  exact (@listPublishable Nat unscanned [jazzDir,bareDir] _ rfl (by decide) .little).1.mpr ⟨by decide,by decide⟩

/- Without a channel the list pointer leads nowhere, and the datagram is one octet. -/
theorem nonePublishable : ∃ r, mlibGetchnlist unscanned (some [bareDir]) = some (0,r) ∧ r.entries = [] ∧
    0 ∈ thrListSubscripts r.entries.length ∧ listOctets .little r.entries = [listchnid] ∧
    ¬ Publishable .little r.entries := by
  refine ⟨_,rfl,rfl,by decide,by decide,?_⟩
  intro publishable
  exact absurd (publishable.inside 0 List.mem_cons_self) (by decide)

end IPv4Media.ListPublication
