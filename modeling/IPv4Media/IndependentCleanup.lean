import IPv4Media.ChannelSetUp
import IPv4Media.IndependentLibrary
import Mathlib.Data.List.Dedup
import Mathlib.Data.List.Nodup

/-! mlib_cleanup after any scans and reads (medialibindependenttoken.c), as far as the
buckets go: which of them it destroys, and which stay in job[]. Unlike in medialib.c a
path2entry that fails has given its bucket back. -/
namespace IPv4Media.IndependentCleanup
open Octets Proto TimerModule Execution IndependentLibrary
open ChannelSetUp (registered registeredTaken registeredSame)
open MediaLibrary (MediaDir fgets lineBufSize)

structure Ledger (m : Module) : Prop where
  live : ∀ address b, m.bucket address = some b → m.frees address = 0
  freed : ∀ address, address < m.allocated → m.bucket address = none → m.frees address = 1
  unborn : ∀ address, m.allocated ≤ address → m.frees address = 0

theorem ledgerUnloaded : Ledger unloaded :=
  ⟨fun _ _ live => by contradiction,fun _ below => absurd below (Nat.not_lt_zero _),fun _ _ => rfl⟩

theorem ledgerSame {m n : Module} (ledger : Ledger m) (bucket : n.bucket = m.bucket) (frees : n.frees = m.frees)
    (allocated : n.allocated = m.allocated) : Ledger n := by
  constructor
  · rw [bucket,frees]; exact ledger.live
  · rw [bucket,frees,allocated]; exact ledger.freed
  · rw [frees,allocated]; exact ledger.unborn

structure Sound (m : Module) : Prop where
  table : Table m
  ledger : Ledger m

structure Gained (m : Module) (address : Option Nat) (n : Module) : Prop where
  sound : Sound n
  old : ∀ other b, m.bucket other = some b → n.bucket other = some b
  count : (registered n).length = (registered m).length + address.toList.length
  fresh : ∀ new, address = some new → m.bucket new = none ∧ (n.bucket new).isSome = true

theorem gainedNothing {m n : Module} (sound : Sound n) (bucket : n.bucket = m.bucket)
    (job : registered n = registered m) : Gained m none n where
  sound := sound
  old := by rw [bucket]; exact fun _ _ live => live
  count := by rw [job,Option.toList_none,List.length_nil,Nat.add_zero]
  fresh := by simp

theorem initGains {m n : Module} {env : InitEnv} {cps burst : Int} {address : Option Nat} (sound : Sound m)
    (h : mytbfInit m env cps burst = some (address,n)) : Gained m address n := by
  have step := initSound h
  have table := tableInit sound.table step
  cases step with
  | null loaded =>
    have ledger := ledgerSame sound.ledger loaded.bucket loaded.frees loaded.allocated
    exact gainedNothing ⟨table,ledger⟩ loaded.bucket (registeredSame loaded.job)
  | made loaded pos inside free =>
    have unused := sound.table.bound m.allocated (Nat.le_refl _)
    have ledger := sound.ledger
    refine ⟨⟨table,⟨?_,?_,?_⟩⟩,?_,registeredTaken inside free rfl,?_⟩
    · simp only [loaded.frees]
      exact updateSome (ledger.unborn _ (Nat.le_refl _)) fun other b _ live => ledger.live other b live
    · intro other below gone
      have old : other ≠ m.allocated := by
        intro same
        simp only [same,updateSame] at gone
        contradiction
      simp only [updateOther _ _ old] at gone
      simp only [loaded.frees]
      exact ledger.freed other (by simp only at below; omega) gone
    · intro other past
      simp only [loaded.frees]
      exact ledger.unborn other (by simp only at past; omega)
    · intro other b live
      have old : other ≠ m.allocated := by
        intro same
        rw [same,unused] at live
        contradiction
      exact (updateOther _ _ old).trans live
    · intro new same
      cases Option.some.inj same
      exact ⟨unused,by simp only [updateSame,Option.isSome_some]⟩

structure Dropped (m : Module) (address : Nat) (n : Module) : Prop where
  sound : Sound n
  count : (registered n).length + 1 = (registered m).length
  bucket : n.bucket = update m.bucket address none
  allocated : n.allocated = m.allocated

theorem destroyDrops {m : Module} {address : Nat} (sound : Sound m) (live : (m.bucket address).isSome = true) :
    ∃ n, mytbfDestroy m address = some n ∧ Dropped m address n := by
  obtain ⟨b,here⟩ := Option.isSome_iff_exists.mp live
  have step : mytbfDestroy m address = some { m with
      job := update m.job b.pos none
      bucket := update m.bucket address none
      frees := update m.frees address (m.frees address + 1) } := by
    simp only [mytbfDestroy,here,Option.bind_eq_bind,Option.bind_some]
  obtain ⟨slot,inside⟩ := sound.table.own address b here
  have below := liveAllocated sound.table here
  have ledger := sound.ledger
  refine ⟨_,step,⟨tableDestroy sound.table step,⟨?_,?_,?_⟩⟩,?_,rfl,rfl⟩
  · intro other c live
    obtain ⟨apart,live⟩ := updateNone live
    exact (updateOther _ _ apart).trans (ledger.live other c live)
  · intro other inside gone
    by_cases same : other = address
    · subst same
      simp only [updateSame,ledger.live other b here]
    · simp only [updateOther _ _ same] at gone ⊢
      exact ledger.freed other inside gone
  · intro other past
    have apart : other ≠ address := by simp only at past; omega
    exact (updateOther _ _ apart).trans (ledger.unborn other past)
  · refine (@registeredTaken _ _ _ address inside (updateSame _ _ _) ?_).symm
    funext i
    by_cases here : i = b.pos
    · rw [here,updateSame,slot]
    · rw [updateOther _ _ here]
      exact (updateOther _ _ here).symm

theorem destroyGone {m : Module} {address : Nat} (gone : m.bucket address = none) : mytbfDestroy m address = none := by
  simp [mytbfDestroy,gone]

theorem destroyAll {m : Module} {addresses : List Nat} (sound : Sound m) (distinct : addresses.Nodup)
    (live : ∀ address ∈ addresses, (m.bucket address).isSome = true) :
    ∃ n, exec mytbfDestroy m addresses = some n ∧ Sound n ∧
      (registered n).length + addresses.length = (registered m).length ∧
      (∀ address, n.bucket address = if address ∈ addresses then none else m.bucket address) := by
  induction addresses generalizing m with
  | nil => exact ⟨m,rfl,sound,Nat.add_zero _,fun address => by simp⟩
  | cons first rest ih =>
    obtain ⟨outside,distinct⟩ := List.nodup_cons.mp distinct
    obtain ⟨k,step,dropped⟩ := destroyDrops sound (live first List.mem_cons_self)
    have other : ∀ address ∈ rest, (k.bucket address).isSome = true := by
      intro address member
      have apart : address ≠ first := fun same => outside (same ▸ member)
      rw [dropped.bucket,updateOther _ _ apart]
      exact live address (List.mem_cons_of_mem _ member)
    obtain ⟨n,run,after,count,bucket⟩ := ih dropped.sound distinct other
    refine ⟨n,by rw [execCons,step]; exact run,after,?_,?_⟩
    · rw [List.length_cons,← dropped.count,← count]
      omega
    · intro address
      rw [bucket,dropped.bucket]
      by_cases same : address = first
      · subst same
        simp
      · simp [updateOther _ _ same,same]

structure Entered (lib : MediaLib) (res : Option ChannelContext) (lib' : MediaLib) : Prop where
  entry : Entry lib res lib'
  gained : Gained lib.mod (res.bind ChannelContext.tbf) lib'.mod

theorem gainedDropped {m n k : Module} {address : Nat} (gained : Gained m (some address) n)
    (dropped : Dropped n address k) : Gained m none k := by
  have unused := (gained.fresh address rfl).1
  refine ⟨dropped.sound,?_,?_,fun _ none_ => by contradiction⟩
  · intro other b live
    have apart : other ≠ address := by
      intro same
      rw [same,unused] at live
      contradiction
    rw [dropped.bucket,updateOther _ _ apart]
    exact gained.old other b live
  · have more := gained.count
    have less := dropped.count
    simp only [Option.toList_some,List.length_singleton,Option.toList_none,List.length_nil] at more ⊢
    omega

theorem path2entryEnters {lib lib' : MediaLib} {d res} (sound : Sound lib.mod)
    (h : IndependentLibrary.path2entry lib d = some (res,lib')) : Entered lib res lib' := by
  refine ⟨path2entrySound h,?_⟩
  unfold path2entry at h
  split at h
  · cases Option.some.inj h
    exact gainedNothing sound rfl rfl
  · split at h
    · obtain ⟨⟨tbf,mod⟩,made,h⟩ := Option.bind_eq_some_iff.mp h
      have gained := initGains sound made
      cases tbf with
      | none =>
        cases Option.some.inj h
        exact gained
      | some tbf =>
        have live := (gained.fresh tbf rfl).2
        obtain ⟨k,drop,dropped⟩ := destroyDrops gained.sound live
        simp only at h
        split at h
        · obtain ⟨mod,gone,h⟩ := Option.bind_eq_some_iff.mp h
          cases Option.some.inj h
          cases Option.some.inj (gone.symm.trans drop)
          exact gainedDropped gained dropped
        · split at h
          · obtain ⟨mod,gone,h⟩ := Option.bind_eq_some_iff.mp h
            cases Option.some.inj h
            cases Option.some.inj (gone.symm.trans drop)
            exact gainedDropped gained dropped
          · cases Option.some.inj h
            exact gained
    · cases Option.some.inj h
      exact gainedNothing sound rfl rfl

/- Each slot that was written leads to a bucket of its own; the buckets in job[] are as
many as the copies so far. -/
structure Owned (lib : MediaLib) : Prop where
  slots : Slots lib
  sound : Sound lib.mod
  count : (registered lib.mod).length = lib.written.length
  low : ∀ i ∈ lib.written, i ≤ maxchnid
  live : ∀ i ∈ lib.written, ∀ address, (lib.channel i).tbf = some address → (lib.mod.bucket address).isSome = true
  apart : ∀ i ∈ lib.written, ∀ j ∈ lib.written, (lib.channel i).tbf = (lib.channel j).tbf → i = j

theorem ownedStart : Owned processStart where
  slots := slotsStart
  sound := ⟨tableUnloaded,ledgerUnloaded⟩
  count := by
    have none_ : (List.range mytbfMax).filterMap processStart.mod.job = [] :=
      List.filterMap_eq_nil_iff.mpr fun _ _ => rfl
    rw [registered,none_]
    rfl
  low := by simp [processStart]
  live := by simp [processStart]
  apart := by simp [processStart]

theorem ownedSame {lib lib' : MediaLib} (owned : Owned lib) (slots : Slots lib') (mod : lib'.mod = lib.mod)
    (written : lib'.written = lib.written) (tbf : ∀ i, (lib'.channel i).tbf = (lib.channel i).tbf) : Owned lib' where
  slots := slots
  sound := by rw [mod]; exact owned.sound
  count := by rw [mod,written]; exact owned.count
  low := by rw [written]; exact owned.low
  live := by
    simp only [mod,written,tbf]
    exact owned.live
  apart := by
    simp only [written,tbf]
    exact owned.apart

theorem clearedTbf (lib : MediaLib) (i : Nat) : ((cleared lib).channel i).tbf = (lib.channel i).tbf := by
  simp only [cleared]
  split <;> rfl

theorem ownedCleared {lib : MediaLib} (owned : Owned lib) : Owned (cleared lib) :=
  ownedSame owned (slotsCleared owned.slots) rfl rfl (clearedTbf lib)

theorem ownedRejected {lib lib' : MediaLib} (owned : Owned lib) (entered : Entered lib none lib') : Owned lib' where
  slots := slotsEntry owned.slots entered.entry
  sound := entered.gained.sound
  count := by rw [entered.gained.count,entered.entry.written,owned.count]; rfl
  low := by rw [entered.entry.written]; exact owned.low
  live := by
    rw [entered.entry.written,entered.entry.channel]
    intro i member address tbf
    obtain ⟨b,here⟩ := Option.isSome_iff_exists.mp (owned.live i member address tbf)
    rw [entered.gained.old address b here]
    rfl
  apart := by
    rw [entered.entry.written,entered.entry.channel]
    exact owned.apart

theorem ownedRegistered {lib middle lib' : MediaLib} {res : ChannelContext} (owned : Owned lib)
    (entered : Entered lib (some res) middle) (copy : register middle res = some lib') : Owned lib' := by
  have entry := entered.entry
  have gained := entered.gained
  obtain ⟨address,mine⟩ := Option.isSome_iff_exists.mp (entry.bucket res rfl)
  simp only [Option.bind_some,mine] at gained
  obtain ⟨unused,there⟩ := gained.fresh address rfl
  have slots := slotsRegister (slotsEntry owned.slots entry) copy (entry.bucket res rfl)
  obtain ⟨low,rfl⟩ := registerSound copy
  have member : ∀ i, i ≠ res.chnid.toNat → i ∈ middle.written ++ [res.chnid.toNat] → i ∈ lib.written := by
    intro i other inside
    rcases List.mem_append.mp inside with old | new
    · rw [entry.written] at old
      exact old
    · exact absurd (List.mem_singleton.mp new) other
  -- no other slot has the new bucket
  have foreign : ∀ i ∈ lib.written, (lib.channel i).tbf ≠ some address := by
    intro i inside same
    have live := owned.live i inside address same
    rw [unused] at live
    contradiction
  refine ⟨slots,gained.sound,?_,?_,?_,?_⟩
  · rw [gained.count,owned.count,entry.written,List.length_append]
    rfl
  · intro i inside
    by_cases here : i = res.chnid.toNat
    · rw [here]
      exact low
    · exact owned.low i (member i here inside)
  · intro i inside other tbf
    by_cases here : i = res.chnid.toNat
    · simp only [here,updateSame,mine] at tbf
      cases Option.some.inj tbf
      exact there
    · simp only [updateOther _ _ here,entry.channel] at tbf
      obtain ⟨b,live⟩ := Option.isSome_iff_exists.mp (owned.live i (member i here inside) other tbf)
      simp only [gained.old other b live,Option.isSome_some]
  · intro i insideI j insideJ same
    by_cases hereI : i = res.chnid.toNat
    · by_cases hereJ : j = res.chnid.toNat
      · rw [hereI,hereJ]
      · simp only [hereI,updateSame,updateOther _ _ hereJ,entry.channel,mine] at same
        exact absurd same.symm (foreign j (member j hereJ insideJ))
    · by_cases hereJ : j = res.chnid.toNat
      · simp only [hereJ,updateSame,updateOther _ _ hereI,entry.channel,mine] at same
        exact absurd same (foreign i (member i hereI insideI))
      · simp only [updateOther _ _ hereI,updateOther _ _ hereJ,entry.channel] at same
        exact owned.apart i (member i hereI insideI) j (member j hereJ insideJ) same

theorem ownedScan {dirs : List (MediaDir Nat)} {lib lib' : MediaLib} {entries} (owned : Owned lib)
    (h : IndependentLibrary.scan lib dirs = some (entries,lib')) : Owned lib' := by
  induction dirs generalizing lib entries with
  | nil => cases Option.some.inj h; exact owned
  | cons d dirs ih =>
    simp only [IndependentLibrary.scan,Option.bind_eq_bind] at h
    obtain ⟨⟨res,middle⟩,first,h⟩ := Option.bind_eq_some_iff.mp h
    have entered := path2entryEnters owned.sound first
    cases res with
    | none => exact ih (ownedRejected owned entered) h
    | some res =>
      obtain ⟨copied,copy,h⟩ := Option.bind_eq_some_iff.mp h
      obtain ⟨⟨rest,last⟩,later,h⟩ := Option.bind_eq_some_iff.mp h
      cases Option.some.inj h
      exact ih (ownedRegistered owned entered copy) later

theorem readTbf (lib : MediaLib) (chnid : UInt8) (pos fd offset : Int) (i : Nat) :
    (update lib.channel chnid.toNat { lib.channel chnid.toNat with pos, fd, offset } i).tbf = (lib.channel i).tbf := by
  by_cases here : i = chnid.toNat
  · rw [here,updateSame]
  · rw [updateOther _ _ here]

theorem ownedNext {lib lib' : MediaLib} {e : Event} (owned : Owned lib) (step : next lib e = some lib') :
    Owned lib' := by
  have slots := slotsNext owned.slots step
  cases e with
  | scan globbed =>
    obtain ⟨⟨ret,entries,found⟩,call,rfl⟩ := Option.map_eq_some_iff.mp step
    cases globbed with
    | none => cases Option.some.inj call; exact ownedCleared owned
    | some dirs =>
      obtain ⟨⟨list,last⟩,scanned,end_⟩ := Option.bind_eq_some_iff.mp call
      cases Option.some.inj end_
      exact ownedSame (ownedScan (ownedCleared owned) scanned) slots rfl rfl fun _ => rfl
  | readchn chnid pos fd offset =>
    simp only [next] at step
    split at step <;> try contradiction
    cases Option.some.inj step
    exact ownedSame owned slots rfl rfl (readTbf lib chnid pos fd offset)

theorem ownedRun {events : List Event} {lib : MediaLib} (run : exec next processStart events = some lib) : Owned lib :=
  invariant ownedStart (fun _ _ _ owned step => ownedNext owned step) run

def doomed (lib : MediaLib) : List Nat := destroyed (mlibCleanup lib)

theorem doomedSlots (lib : MediaLib) : doomed lib = (List.range (maxchnid + 1)).filterMap fun i => (lib.channel i).tbf := by
  rw [doomed,destroyedCleanup,List.filterMap_eq_flatMap_toList]

theorem tbfWritten {lib : MediaLib} (owned : Owned lib) (i : Nat) : (lib.channel i).tbf.isSome = decide (i ∈ lib.written) := by
  by_cases written : i ∈ lib.written
  · rw [owned.slots.bucketed i written,decide_eq_true written]
  · rw [owned.slots.untouched i written,decide_eq_false written]
    rfl

theorem slotWritten {lib : MediaLib} (owned : Owned lib) {i address : Nat} (tbf : (lib.channel i).tbf = some address) :
    i ∈ lib.written := by
  have some_ := tbfWritten owned i
  rw [tbf] at some_
  exact of_decide_eq_true some_.symm

theorem doomedDistinct {lib : MediaLib} (owned : Owned lib) : (doomed lib).Nodup := by
  rw [doomedSlots]
  refine List.nodup_range.filterMap fun i j address first second => ?_
  rw [Option.mem_def] at first second
  exact owned.apart i (slotWritten owned first) j (slotWritten owned second) (first.trans second.symm)

theorem doomedLive {lib : MediaLib} (owned : Owned lib) :
    ∀ address ∈ doomed lib, (lib.mod.bucket address).isSome = true := by
  intro address member
  rw [doomedSlots] at member
  obtain ⟨i,_,tbf⟩ := List.mem_filterMap.mp member
  exact owned.live i (slotWritten owned tbf) address tbf

theorem doomedLength {lib : MediaLib} (owned : Owned lib) : (doomed lib).length = lib.written.dedup.length := by
  have same : ((List.range (maxchnid + 1)).filter fun i => decide (i ∈ lib.written)).Perm lib.written.dedup := by
    refine (List.perm_ext_iff_of_nodup (List.nodup_range.filter _) (List.nodup_dedup _)).mpr fun i => ?_
    rw [List.mem_filter,List.mem_range,List.mem_dedup,decide_eq_true_iff]
    constructor
    · intro both
      exact both.2
    · intro written
      exact ⟨Nat.lt_succ_of_le (owned.low i written),written⟩
  rw [doomedSlots,List.length_filterMap_eq_countP,List.countP_eq_length_filter,← same.length_eq]
  congr 1
  exact List.filter_congr fun i _ => tbfWritten owned i

theorem registeredNone {m : Module} (table : Table m) : (registered m).length = 0 ↔ ∀ address, m.bucket address = none := by
  rw [List.length_eq_zero_iff,registered,List.filterMap_eq_nil_iff]
  constructor
  · intro empty address
    cases live : m.bucket address with
    | none => rfl
    | some b =>
      obtain ⟨slot,inside⟩ := table.own address b live
      rw [empty b.pos (List.mem_range.mpr inside)] at slot
      contradiction
  · intro gone i _
    cases slot : m.job i with
    | none => rfl
    | some address =>
      obtain ⟨b,live,_⟩ := table.slot i address slot
      rw [gone address] at live
      cases live

/- A copy went to each slot once as long as curr_id has not come round. -/
structure Rising (n : Nat) (lib : MediaLib) : Prop where
  id : lib.currId.toNat ≤ minchnid + n
  rising : lib.written.Pairwise (· < ·)
  below : ∀ i ∈ lib.written, i < lib.currId.toNat

theorem entryId {lib lib' : MediaLib} {d res} (h : IndependentLibrary.path2entry lib d = some (res,lib')) :
    (lib'.currId = lib.currId ∨ lib'.currId = lib.currId + 1) ∧
      ∀ me, res = some me → me.chnid = lib.currId ∧ lib'.currId = lib.currId + 1 := by
  unfold path2entry at h
  split at h
  · cases Option.some.inj h
    exact ⟨.inl rfl,by simp⟩
  · split at h
    · obtain ⟨⟨tbf,mod⟩,_,h⟩ := Option.bind_eq_some_iff.mp h
      cases tbf with
      | none =>
        cases Option.some.inj h
        exact ⟨.inl rfl,by simp⟩
      | some tbf =>
        simp only at h
        split at h
        · obtain ⟨mod,_,h⟩ := Option.bind_eq_some_iff.mp h
          cases Option.some.inj h
          exact ⟨.inr rfl,by simp⟩
        · split at h
          · obtain ⟨mod,_,h⟩ := Option.bind_eq_some_iff.mp h
            cases Option.some.inj h
            exact ⟨.inl rfl,by simp⟩
          · cases Option.some.inj h
            refine ⟨.inr rfl,fun me same => ?_⟩
            cases Option.some.inj same
            exact ⟨rfl,rfl⟩
    · cases Option.some.inj h
      exact ⟨.inl rfl,by simp⟩

theorem nextId {currId : UInt8} (room : currId.toNat < 255) : (currId + 1).toNat = currId.toNat + 1 := by
  rw [UInt8.toNat_add]
  exact Nat.mod_eq_of_lt (Nat.succ_lt_succ room)

theorem risingScan {n : Nat} {dirs : List (MediaDir Nat)} {lib lib' : MediaLib} {entries} (rising : Rising n lib)
    (few : n + dirs.length < 255) (h : IndependentLibrary.scan lib dirs = some (entries,lib')) :
    Rising (n + dirs.length) lib' := by
  induction dirs generalizing n lib entries with
  | nil => cases Option.some.inj h; exact rising
  | cons d dirs ih =>
    simp only [IndependentLibrary.scan,Option.bind_eq_bind] at h
    obtain ⟨⟨res,middle⟩,first,h⟩ := Option.bind_eq_some_iff.mp h
    obtain ⟨ids,mine⟩ := entryId first
    have entry := path2entrySound first
    have id := rising.id
    rw [List.length_cons] at few ⊢
    have room : lib.currId.toNat < 255 := by simp only [minchnid] at id; omega
    have step : middle.currId.toNat ≤ lib.currId.toNat + 1 ∧ lib.currId.toNat ≤ middle.currId.toNat := by
      rcases ids with same | more
      · rw [same]
        omega
      · rw [more,nextId room]
        omega
    have length : n + (dirs.length + 1) = n + 1 + dirs.length := by omega
    rw [length] at few ⊢
    cases res with
    | none =>
      refine ih ⟨by simp only; omega,?_,?_⟩ few h
      · rw [entry.written]
        exact rising.rising
      · rw [entry.written]
        exact fun i written => Nat.lt_of_lt_of_le (rising.below i written) step.2
    | some res =>
      obtain ⟨copied,copy,h⟩ := Option.bind_eq_some_iff.mp h
      obtain ⟨⟨rest,last⟩,later,h⟩ := Option.bind_eq_some_iff.mp h
      cases Option.some.inj h
      obtain ⟨chnid,more⟩ := mine res rfl
      obtain ⟨_,rfl⟩ := registerSound copy
      refine ih ⟨by simp only; omega,?_,?_⟩ few later
      · simp only [entry.written]
        refine List.pairwise_append.mpr ⟨rising.rising,List.pairwise_singleton _ _,fun i written j new => ?_⟩
        rw [List.mem_singleton.mp new,chnid]
        exact rising.below i written
      · intro i written
        simp only [entry.written,more,nextId room] at written ⊢
        rcases List.mem_append.mp written with old | new
        · exact Nat.lt_succ_of_lt (rising.below i old)
        · rw [List.mem_singleton.mp new,chnid]
          exact Nat.lt_succ_self _

def dirsSeen : Event → Nat
  | .scan (some dirs) => dirs.length
  | _ => 0

def dirCount (events : List Event) : Nat := (events.map dirsSeen).sum

theorem dirCountSnoc (events : List Event) (e : Event) : dirCount (events ++ [e]) = dirCount events + dirsSeen e := by
  simp [dirCount]

theorem risingRun {events : List Event} {lib : MediaLib} (run : exec next processStart events = some lib)
    (few : dirCount events < 255) : Rising (dirCount events) lib := by
  refine history (I := fun es lib => dirCount es < 255 → Rising (dirCount es) lib) ?_ ?_ run few
  · intro _
    exact ⟨Nat.le_refl _,List.Pairwise.nil,by simp [processStart]⟩
  · intro es lib e lib' before step few
    rw [dirCountSnoc] at few ⊢
    have rising := before (by omega)
    cases e with
    | scan globbed =>
      obtain ⟨⟨ret,entries,found⟩,call,rfl⟩ := Option.map_eq_some_iff.mp step
      have start : Rising (dirCount es) (cleared lib) := ⟨rising.id,rising.rising,rising.below⟩
      cases globbed with
      | none => cases Option.some.inj call; exact start
      | some dirs =>
        obtain ⟨⟨list,last⟩,scanned,end_⟩ := Option.bind_eq_some_iff.mp call
        cases Option.some.inj end_
        have after := risingScan start few scanned
        exact ⟨after.id,after.rising,after.below⟩
    | readchn chnid pos fd offset =>
      simp only [next] at step
      split at step <;> try contradiction
      cases Option.some.inj step
      exact ⟨rising.id,rising.rising,rising.below⟩

/- What mlib_cleanup leaves of the buckets: those whose context another one with the same
id has overwritten, and nothing a second mlib_cleanup could destroy. -/
structure Cleaned (events : List Event) (lib : MediaLib) (m : Module) : Prop where
  left : (registered m).length + lib.written.dedup.length = lib.written.length
  nothing : (∀ address, m.bucket address = none) ↔ lib.written.Nodup
  few : dirCount events < 255 → ∀ address, m.bucket address = none
  once : ∀ address, address < m.allocated → m.bucket address = none → m.frees address = 1
  again : lib.written ≠ [] → exec mytbfDestroy m (doomed lib) = none

theorem independentCleanup {events : List Event} {lib : MediaLib} (run : exec next processStart events = some lib) :
    ∃ m, exec mytbfDestroy lib.mod (doomed lib) = some m ∧ Cleaned events lib m := by
  have owned := ownedRun run
  obtain ⟨m,destroyed_,sound,count,bucket⟩ := destroyAll owned.sound (doomedDistinct owned) (doomedLive owned)
  have left : (registered m).length + lib.written.dedup.length = lib.written.length := by
    rw [← doomedLength owned,count]
    exact owned.count
  have nothing : (∀ address, m.bucket address = none) ↔ lib.written.Nodup := by
    rw [← registeredNone sound.table,← List.dedup_eq_self]
    constructor
    · intro none_
      exact (List.dedup_sublist lib.written).eq_of_length (by omega)
    · intro same
      rw [same] at left
      omega
  refine ⟨m,destroyed_,left,nothing,?_,sound.ledger.freed,?_⟩
  · intro few
    exact nothing.mpr ((risingRun run few).rising.imp Nat.ne_of_lt)
  · intro some_
    cases all : doomed lib with
    | nil =>
      have length := doomedLength owned
      rw [all,List.length_nil] at length
      exact absurd ((List.dedup_eq_nil _).mp (List.eq_nil_of_length_eq_zero length.symm)) some_
    | cons address rest =>
      have gone : m.bucket address = none := by
        rw [bucket,all]
        exact if_pos List.mem_cons_self
      rw [execCons,destroyGone gone]
      rfl

/- Two scans: of five directories two are channels, one has no mp3, one whose first mp3
does not open, one no desc.txt. -/
def rescanned : List Event :=
  [.scan (some [⟨some [97],true,⟨true,true,true⟩,[[49]],some 3⟩,⟨some [98],true,⟨true,true,true⟩,[],none⟩]),
   .readchn 1 0 3 4096,
   .scan (some [⟨none,true,⟨true,true,true⟩,[[50]],none⟩,⟨some [99],true,⟨true,true,true⟩,[[51]],none⟩,
     ⟨some [100],true,⟨true,true,true⟩,[[52]],some 4⟩])]

theorem rescannedCleaned : ∃ lib m, exec next processStart rescanned = some lib ∧ lib.written = [1,3] ∧
    doomed lib = [0,3] ∧ exec mytbfDestroy lib.mod (doomed lib) = some m ∧ Cleaned rescanned lib m := by
  have ran : (exec next processStart rescanned).map (fun lib => (lib.written,doomed lib)) = some ([1,3],[0,3]) := by
    decide +kernel
  obtain ⟨lib,run,seen⟩ := Option.map_eq_some_iff.mp ran
  obtain ⟨written,buckets⟩ := Prod.mk.inj seen
  obtain ⟨m,destroyed_,cleaned⟩ := independentCleanup run
  exact ⟨lib,m,run,written,buckets,destroyed_,cleaned⟩

end IPv4Media.IndependentCleanup
