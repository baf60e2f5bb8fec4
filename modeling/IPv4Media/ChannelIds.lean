import IPv4Media.MediaLibrary
import Mathlib.Data.List.Nodup

/-! The ids of one scan. The static counter is 8 bits wide and nothing stops it at
MAXCHNID, so the ids are good as long as not too many directories have taken one. -/
namespace IPv4Media.ChannelIds
open Octets Proto Playlist TimerModule MediaLibrary

variable {φ : Type}

def idsBefore : Nat → List (MediaDir φ) → List Nat
  | _, [] => []
  | k, d :: dirs =>
    if valid d then k :: idsBefore (k+1) dirs
    else if noMp3 d then idsBefore (k+1) dirs
    else idsBefore k dirs

def idAt (currId : UInt8) (k : Nat) : UInt8 := currId + UInt8.ofNat k

theorem idAtNext (currId : UInt8) (k : Nat) : idAt currId k + 1 = idAt currId (k+1) := by
  rw [idAt,idAt,UInt8.ofNat_add,UInt8.add_assoc]
  rfl

theorem idAtNat (currId : UInt8) (k : Nat) : (idAt currId k).toNat = (currId.toNat + k) % 2^8 := by
  simp [idAt,UInt8.toNat_add]

def ids (owners : List (ChannelContext φ)) : List UInt8 := owners.map fun ch => ch.chnid

def copied (channel : Nat → Option (ChannelContext φ)) (owners : List (ChannelContext φ)) :
    Nat → Option (ChannelContext φ) :=
  owners.foldl (fun channel res => update channel res.chnid.toNat (some res)) channel

structure ScanSource (currId : UInt8) (k : Nat) (lib : MediaLib φ) (dirs : List (MediaDir φ)) (r : Scanned φ) :
    Prop where
  ids : ids r.owners = (idsBefore k dirs).map (idAt currId)
  entries : r.entries.map (fun e => e.chnid) = ChannelIds.ids r.owners
  written : r.lib.written = lib.written ++ (ChannelIds.ids r.owners).map UInt8.toNat
  channel : r.lib.channel = copied lib.channel r.owners

theorem scanSound {currId : UInt8} {k : Nat} {lib : MediaLib φ} {dirs r} (at_ : lib.currId = idAt currId k)
    (h : scan lib dirs = some r) : ScanSource currId k lib dirs r := by
  induction dirs generalizing k lib r with
  | nil =>
    cases Option.some.inj h
    exact ⟨rfl,rfl,(List.append_nil _).symm,rfl⟩
  | cons d dirs ih =>
    unfold scan at h
    obtain ⟨⟨res,mid⟩,entered,h⟩ := Option.bind_eq_some_iff.mp h
    cases path2entrySound entered with
    | rejected mod invalid unnumbered =>
      have rest := @ih k { lib with mod } r at_ h
      refine ⟨?_,rest.entries,rest.written,rest.channel⟩
      rw [rest.ids,idsBefore,invalid,unnumbered]
      rfl
    | numbered mod invalid empty =>
      have rest := @ih (k+1) _ r (by simp only [at_]; exact idAtNext currId k) h
      refine ⟨?_,rest.entries,rest.written,rest.channel⟩
      rw [rest.ids,idsBefore,invalid,empty]
      rfl
    | made mod me good id files pos offset fd open_ =>
      obtain ⟨tail,scanned,last⟩ := Option.bind_eq_some_iff.mp h
      cases Option.some.inj last
      have rest := @ih (k+1) _ tail (by simp only [register,at_]; exact idAtNext currId k) scanned
      refine ⟨?_,?_,?_,rest.channel⟩
      · have tailIds := rest.ids
        simp only [ids] at tailIds
        simp only [ids,List.map_cons,tailIds,idsBefore,good,if_true,id,at_]
      · simp only [List.map_cons,rest.entries,ids]
      · rw [rest.written]
        simp [register,ids]

theorem copiedOther {owners : List (ChannelContext φ)} (channel : Nat → Option (ChannelContext φ)) {i : Nat}
    (unused : i ∉ (ids owners).map UInt8.toNat) : copied channel owners i = channel i := by
  induction owners generalizing channel with
  | nil => rfl
  | cons ch owners ih =>
    simp only [ids,List.map_cons,List.mem_cons,not_or] at unused
    rw [copied,List.foldl_cons]
    exact (ih _ unused.2).trans (updateOther _ _ unused.1)

theorem copiedOwn {owners : List (ChannelContext φ)} (channel : Nat → Option (ChannelContext φ)) {ch}
    (distinct : (ids owners).Nodup) (member : ch ∈ owners) : copied channel owners ch.chnid.toNat = some ch := by
  induction owners generalizing channel with
  | nil => cases member
  | cons first owners ih =>
    obtain ⟨new,rest⟩ := List.nodup_cons.mp distinct
    rw [copied,List.foldl_cons]
    rcases List.mem_cons.mp member with rfl | later
    · have unused : ch.chnid.toNat ∉ (ids owners).map UInt8.toNat := by
        intro used
        obtain ⟨other,inside,same⟩ := List.mem_map.mp used
        rw [UInt8.toNat_inj.mp same] at inside
        exact new inside
      exact (copiedOther _ unused).trans (updateSame _ _ _)
    · exact ih _ rest later

structure Allocated (r : Scanned φ) : Prop where
  distinct : (r.entries.map fun e => e.chnid).Nodup
  range : ∀ e ∈ r.entries, minchnid ≤ e.chnid.toNat ∧ e.chnid.toNat ≤ maxchnid
  writes : ∀ i ∈ r.lib.written, i ≤ maxchnid
  own : ∀ pair ∈ r.entries.zip r.owners, r.lib.channel pair.1.chnid.toNat = some pair.2

structure IdsSuffice (currId : UInt8) (dirs : List (MediaDir φ)) : Prop where
  range : ∀ k ∈ idsBefore 0 dirs,
    minchnid ≤ (currId.toNat + k) % 2^8 ∧ (currId.toNat + k) % 2^8 ≤ maxchnid
  distinct : ((idsBefore 0 dirs).map fun k => (currId.toNat + k) % 2^8).Nodup

theorem scanOf {lib : MediaLib φ} {dirs r} (ok : mlibGetchnlist lib (some dirs) = some (0,r)) :
    ScanSource lib.currId 0 { lib with channel := fun _ => none, written := [] } dirs r := by
  obtain ⟨scanned,h,last⟩ := Option.bind_eq_some_iff.mp ok
  obtain ⟨_,rfl⟩ := Prod.mk.inj (Option.some.inj last)
  exact scanSound (by simp [idAt]) h

theorem entryNumbers {currId : UInt8} {lib : MediaLib φ} {dirs r} (source : ScanSource currId 0 lib dirs r) :
    (r.entries.map fun e => e.chnid).map UInt8.toNat =
      (idsBefore 0 dirs).map fun k => (currId.toNat + k) % 2^8 := by
  rw [source.entries,source.ids,List.map_map]
  exact List.map_congr_left fun k _ => idAtNat currId k

theorem distinctIds {currId : UInt8} {lib : MediaLib φ} {dirs r} (source : ScanSource currId 0 lib dirs r) :
    (r.entries.map fun e => e.chnid).Nodup ↔ ((idsBefore 0 dirs).map fun k => (currId.toNat + k) % 2^8).Nodup := by
  rw [← entryNumbers source]
  exact (List.nodup_map_iff (fun _ _ same => UInt8.toNat_inj.mp same)).symm

theorem idsInRange {currId : UInt8} {lib : MediaLib φ} {dirs r} (source : ScanSource currId 0 lib dirs r) :
    (∀ e ∈ r.entries, minchnid ≤ e.chnid.toNat ∧ e.chnid.toNat ≤ maxchnid) ↔
      ∀ k ∈ idsBefore 0 dirs, minchnid ≤ (currId.toNat + k) % 2^8 ∧ (currId.toNat + k) % 2^8 ≤ maxchnid := by
  have numbers := entryNumbers source
  constructor
  · intro range k member
    have there : (currId.toNat + k) % 2^8 ∈ (r.entries.map fun e => e.chnid).map UInt8.toNat := by
      rw [numbers]
      exact List.mem_map_of_mem member
    obtain ⟨id,inside,same⟩ := List.mem_map.mp there
    obtain ⟨e,entry,rfl⟩ := List.mem_map.mp inside
    rw [← same]
    exact range e entry
  · intro range e entry
    have there : e.chnid.toNat ∈ (idsBefore 0 dirs).map fun k => (currId.toNat + k) % 2^8 := by
      rw [← numbers]
      exact List.mem_map_of_mem (List.mem_map_of_mem entry)
    obtain ⟨k,member,same⟩ := List.mem_map.mp there
    rw [← same]
    exact range k member

theorem zipSame {xs : List MlibListentry} {ys : List (ChannelContext φ)}
    (same : xs.map (fun e => e.chnid) = ids ys) : ∀ pair ∈ xs.zip ys, pair.1.chnid = pair.2.chnid := by
  induction xs generalizing ys with
  | nil => simp
  | cons x xs ih =>
    obtain ⟨y,rest,rfl,head,tail⟩ := List.map_eq_cons_iff.mp same.symm
    intro pair member
    rcases List.mem_cons.mp member with rfl | later
    · exact head.symm
    · exact ih tail.symm pair later

theorem channelIds {lib : MediaLib φ} {dirs r} (ok : mlibGetchnlist lib (some dirs) = some (0,r)) :
    Allocated r ↔ IdsSuffice lib.currId dirs := by
  have source := scanOf ok
  constructor
  · intro allocated
    exact ⟨(idsInRange source).mp allocated.range,(distinctIds source).mp allocated.distinct⟩
  · intro suffice_
    have distinct := (distinctIds source).mpr suffice_.distinct
    have range := (idsInRange source).mpr suffice_.range
    refine ⟨distinct,range,?_,?_⟩
    · intro i written
      rw [source.written,List.nil_append,← source.entries,List.map_map] at written
      obtain ⟨e,entry,rfl⟩ := List.mem_map.mp written
      exact (range e entry).2
    · intro pair member
      rw [source.entries] at distinct
      rw [zipSame source.entries pair member,source.channel]
      exact copiedOwn _ distinct (List.of_mem_zip member).2

theorem firstScan {dirs : List (MediaDir φ)} {r} (scanned : scan unscanned dirs = some r) :
    mlibGetchnlist unscanned (some dirs) = some (0,r) :=
  Option.bind_eq_some_iff.mpr ⟨r,scanned,rfl⟩

def goodDir : MediaDir Nat := ⟨some [74,10],true,⟨true,true,true⟩,[[1]],some 3⟩
def emptyDir : MediaDir Nat := ⟨some [74,10],true,⟨true,true,true⟩,[],none⟩

theorem sampleIds : ∃ r, mlibGetchnlist unscanned (some [goodDir,emptyDir,goodDir]) = some (0,r) ∧
    r.entries.map (fun e => e.chnid) = [1,3] ∧ Allocated r := by
  refine ⟨_,rfl,rfl,?_⟩
  exact (@channelIds Nat unscanned [goodDir,emptyDir,goodDir] _ rfl).mpr ⟨by decide,by decide⟩

theorem scanReturns {lib : MediaLib Nat} {dirs : List (MediaDir Nat)} {n : Nat} (good : ∀ d ∈ dirs, d = goodDir)
    (packed : Packed lib.mod n) (room : n + dirs.length ≤ mytbfMax) : ∃ r, scan lib dirs = some r := by
  induction dirs generalizing lib n with
  | nil => exact ⟨_,rfl⟩
  | cons d dirs ih =>
    obtain rfl := good d (List.mem_cons_self)
    rw [List.length_cons] at room
    obtain ⟨mod,made,next⟩ := packedInit packed (by omega) tbfCps tbfBurst
    have entered : path2entry lib goodDir = some
        (some ⟨lib.currId,[74,10],[[1]],0,some 3,0,lib.mod.allocated,by decide⟩,
          { lib with mod, currId := lib.currId + 1 }) := by
      simp only [path2entry,goodDir,made]
      rfl
    obtain ⟨r,scanned⟩ := @ih (register { lib with mod, currId := lib.currId + 1 }
      ⟨lib.currId,[74,10],[[1]],0,some 3,0,lib.mod.allocated,by decide⟩) (n+1)
      (fun other member => good other (List.mem_cons_of_mem _ member)) next (by omega)
    exact ⟨_,by simp only [scan,entered,scanned,Option.bind_eq_bind,Option.bind_some]; rfl⟩

theorem idsBeforeGood (k : Nat) {dirs : List (MediaDir φ)} (good : ∀ d ∈ dirs, valid d = true) :
    idsBefore k dirs = List.range' k dirs.length := by
  induction dirs generalizing k with
  | nil => rfl
  | cons d dirs ih =>
    rw [idsBefore,if_pos (good d (List.mem_cons_self)),
      ih (k+1) (fun other member => good other (List.mem_cons_of_mem d member))]
    rfl

theorem tooManyDirs : ∃ r, mlibGetchnlist unscanned (some (List.replicate (channum + 1) goodDir)) = some (0,r) ∧
    (∃ e ∈ r.entries, e.chnid = 201) ∧ 201 ∈ r.lib.written ∧ ¬ Allocated r := by
  have good : ∀ d ∈ List.replicate (channum + 1) goodDir, d = goodDir :=
    fun d member => List.eq_of_mem_replicate member
  obtain ⟨r,scanned⟩ := @scanReturns unscanned (List.replicate (channum + 1) goodDir) 0 good packedUnloaded
    (by rw [List.length_replicate]; decide)
  have ok := firstScan scanned
  have source := scanOf ok
  have numbers := entryNumbers source
  rw [idsBeforeGood 0 (fun d member => by rw [good d member]; rfl),List.length_replicate] at numbers
  have last : (201 : Nat) ∈ (r.entries.map fun e => e.chnid).map UInt8.toNat := by
    rw [numbers]
    exact List.mem_map.mpr ⟨200,List.mem_range'.mpr ⟨200,by decide,rfl⟩,by decide⟩
  have written : 201 ∈ r.lib.written := by
    rw [source.written,← source.entries]
    exact List.mem_append_right _ last
  obtain ⟨id,inside,same⟩ := List.mem_map.mp last
  obtain ⟨e,entry,rfl⟩ := List.mem_map.mp inside
  refine ⟨r,ok,⟨e,entry,UInt8.toNat_inj.mp same⟩,written,?_⟩
  intro allocated
  exact absurd (allocated.writes 201 written) (by decide)

end IPv4Media.ChannelIds
