import IPv4Media.MediaLibrary

/-! What a path2entry that fails leaves behind (medialib.c). The bucket is registered in
job[] before glob and open are asked, and neither of their failures destroys it. -/
namespace IPv4Media.ChannelSetUp
open Octets Proto Playlist TimerModule MediaLibrary

variable {φ : Type}

def registered (m : Module) : List Nat := (List.range mytbfMax).filterMap m.job

def NoTrace (lib lib' : MediaLib φ) : Prop :=
  registered lib'.mod = registered lib.mod ∧ lib'.currId = lib.currId

inductive BucketStep (lib : MediaLib φ) (d : MediaDir φ) (res : Option (ChannelContext φ)) (lib' : MediaLib φ) :
    Prop where
  | early (undescribed : described d = false) (null : res = none) (job : lib'.mod.job = lib.mod.job)
      (id : lib'.currId = lib.currId)
  | took (reached : described d = true) (result : res.isSome = valid d) (pos address : Nat)
      (inside : pos < mytbfMax) (free : lib.mod.job pos = none)
      (job : lib'.mod.job = update lib.mod.job pos (some address))

theorem initJob {m n : Module} {env cps burst address} (h : mytbfInit m env cps burst = some (address,n)) :
    address = none ∧ env.memory = false ∧ n.job = m.job ∨
    ∃ pos < mytbfMax, address = some m.allocated ∧ env.memory = true ∧ m.job pos = none ∧
      n.job = update m.job pos (some m.allocated) := by
  have memory := initMemory h
  cases initSound h with
  | null loaded => exact .inl ⟨rfl,memory.symm,loaded.job⟩
  | made loaded pos inside free => exact .inr ⟨pos,inside,rfl,memory.symm,free,rfl⟩

theorem path2entryBucket {lib lib' : MediaLib φ} {d res} (h : path2entry lib d = some (res,lib')) :
    BucketStep lib d res lib' := by
  unfold path2entry at h
  split at h
  · rename_i line
    cases Option.some.inj h
    exact .early (by simp [described,line]) rfl rfl rfl
  · rename_i linebuf line
    split at h
    · rename_i memory
      obtain ⟨⟨tbf,mod⟩,made,h⟩ := Option.bind_eq_some_iff.mp h
      rcases initJob made with ⟨rfl,poor,job⟩ | ⟨pos,inside,rfl,rich,free,job⟩
      · cases Option.some.inj h
        exact .early (by simp [described,poor]) rfl job rfl
      · have reached : described d = true := by simp [described,line,memory,rich]
        simp only at h
        split at h
        · rename_i files
          cases Option.some.inj h
          exact .took reached (by simp [valid,files]) pos lib.mod.allocated inside free job
        · rename_i first rest files
          split at h
          · rename_i closed
            cases Option.some.inj h
            exact .took reached (by simp [valid,closed]) pos lib.mod.allocated inside free job
          · rename_i fd opened
            cases Option.some.inj h
            exact .took reached (by simp [valid,reached,files,opened]) pos lib.mod.allocated inside free job
    · rename_i memory
      cases Option.some.inj h
      exact .early (by simp [described,memory]) rfl rfl rfl

theorem filterMapTaken {job : Nat → Option Nat} {pos n : Nat} (address : Nat) (inside : pos < n)
    (free : job pos = none) :
    ((List.range n).filterMap (update job pos (some address))).length =
      ((List.range n).filterMap job).length + 1 := by
  induction n with
  | zero => omega
  | succ n ih =>
    rw [List.range_succ,List.filterMap_append,List.filterMap_append,List.length_append,List.length_append]
    by_cases last : pos = n
    · subst last
      have before : (List.range pos).filterMap (update job pos (some address)) = (List.range pos).filterMap job := by
        refine List.filterMap_congr fun i member => updateOther _ _ ?_
        exact Nat.ne_of_lt (List.mem_range.mp member)
      rw [before]
      simp [free]
    · have same : update job pos (some address) n = job n := updateOther _ _ (Ne.symm last)
      rw [ih (by omega)]
      simp only [List.filterMap_cons,same,List.filterMap_nil]
      omega

theorem registeredTaken {m n : Module} {pos address : Nat} (inside : pos < mytbfMax) (free : m.job pos = none)
    (job : n.job = update m.job pos (some address)) : (registered n).length = (registered m).length + 1 := by
  rw [registered,job]
  exact filterMapTaken address inside free

theorem registeredSame {m n : Module} (job : n.job = m.job) : registered n = registered m := by
  rw [registered,job]
  rfl

/- Once there is a line in desc.txt and memory for context and bucket, there is an mp3
and the first one opens. -/
def Completes (d : MediaDir φ) : Prop := described d = true → d.mp3 ≠ [] ∧ d.opened ≠ none

theorem completesValid {d : MediaDir φ} : Completes d ↔ (described d = true → valid d = true) := by
  refine imp_congr_right fun reached => ?_
  cases files : d.mp3 <;> cases opened : d.opened <;> simp [valid,reached,files,opened]

theorem validDescribed {d : MediaDir φ} (good : valid d = true) : described d = true := by
  simp only [valid,Bool.and_eq_true] at good
  exact good.1.1

theorem failedEntry {lib lib' : MediaLib φ} {d} (failed : path2entry lib d = some (none,lib')) :
    NoTrace lib lib' ↔ Completes d := by
  cases path2entryBucket failed with
  | early undescribed null job id =>
    refine iff_of_true ⟨registeredSame job,id⟩ (fun reached => ?_)
    rw [undescribed] at reached
    contradiction
  | took reached result pos address inside free job =>
    refine iff_of_false (fun same => ?_) (fun completes => ?_)
    · have grown := registeredTaken inside free job
      rw [same.1] at grown
      omega
    · have good := completesValid.mp completes reached
      rw [← result] at good
      contradiction

theorem scanBuckets {lib : MediaLib φ} {dirs : List (MediaDir φ)} {scanned : Scanned φ}
    (done : scan lib dirs = some scanned) :
    (registered scanned.lib.mod).length = (registered lib.mod).length + dirs.countP described ∧
      scanned.entries.length = dirs.countP valid := by
  induction dirs generalizing lib scanned with
  | nil =>
    cases Option.some.inj done
    exact ⟨(Nat.add_zero _).symm,rfl⟩
  | cons d dirs ih =>
    obtain ⟨⟨res,next⟩,entry,rest⟩ := Option.bind_eq_some_iff.mp done
    have grown : (registered next.mod).length = (registered lib.mod).length + if described d then 1 else 0 := by
      cases path2entryBucket entry with
      | early undescribed null job id =>
        rw [registeredSame job,undescribed,if_neg Bool.false_ne_true,Nat.add_zero]
      | took reached result pos address inside free job => rw [registeredTaken inside free job,if_pos reached]
    have returned : res.isSome = valid d := by
      cases path2entrySound entry with
      | rejected mod invalid unnumbered => exact invalid.symm
      | numbered mod invalid empty => exact invalid.symm
      | made mod me good id files pos offset fd open_ => exact good.symm
    rw [List.countP_cons,List.countP_cons,← returned]
    cases res with
    | none =>
      obtain ⟨buckets,entries⟩ := ih rest
      exact ⟨by rw [buckets,grown]; omega,entries⟩
    | some me =>
      obtain ⟨others,later,last⟩ := Option.bind_eq_some_iff.mp rest
      cases Option.some.inj last
      obtain ⟨buckets,entries⟩ := ih later
      refine ⟨?_,congrArg (· + 1) entries⟩
      have kept : (register next me).mod = next.mod := rfl
      rw [kept,grown] at buckets
      rw [buckets]
      omega

theorem countedEqually (dirs : List (MediaDir φ)) :
    dirs.countP described = dirs.countP valid ↔ ∀ d ∈ dirs, Completes d := by
  induction dirs with
  | nil => simp
  | cons d dirs ih =>
    have fewer : dirs.countP valid ≤ dirs.countP described := List.countP_mono_left fun _ _ => validDescribed
    rw [List.forall_mem_cons,← ih,completesValid,List.countP_cons,List.countP_cons]
    cases good : valid d with
    | true => simp [validDescribed good]
    | false =>
      cases reached : described d with
      | true => simp; omega
      | false => simp

theorem channelSetUp (lib : MediaLib φ) :
    (∀ d lib', path2entry lib d = some (none,lib') → (NoTrace lib lib' ↔ Completes d)) ∧
    (∀ dirs scanned, mlibGetchnlist lib (some dirs) = some (0,scanned) →
      ((registered scanned.lib.mod).length = (registered lib.mod).length + scanned.entries.length ↔
        ∀ d ∈ dirs, Completes d)) := by
  refine ⟨fun d lib' failed => failedEntry failed,fun dirs scanned listed => ?_⟩
  obtain ⟨found,done,last⟩ := Option.bind_eq_some_iff.mp listed
  cases Option.some.inj last
  obtain ⟨buckets,entries⟩ := scanBuckets done
  rw [buckets,entries,← countedEqually]
  exact Nat.add_left_cancel_iff

/- A described directory without an mp3, and one whose first mp3 does not open. -/
def silentDir : MediaDir Nat := ⟨some [98,108,117,101,115],true,⟨true,true,true⟩,[],none⟩
def lockedDir : MediaDir Nat := { silentDir with mp3 := [[47,97]] }

theorem traceLeft : ∃ afterSilent afterLocked,
    path2entry unscanned silentDir = some (none,afterSilent) ∧ afterSilent.currId = 2 ∧
    path2entry unscanned lockedDir = some (none,afterLocked) ∧ afterLocked.currId = 1 ∧
    ¬ NoTrace unscanned afterSilent ∧ ¬ NoTrace unscanned afterLocked := by
  have silent : ∃ lib', path2entry unscanned silentDir = some (none,lib') ∧ lib'.currId = 2 := ⟨_,rfl,rfl⟩
  have locked : ∃ lib', path2entry unscanned lockedDir = some (none,lib') ∧ lib'.currId = 1 := ⟨_,rfl,rfl⟩
  obtain ⟨afterSilent,first,id⟩ := silent
  obtain ⟨afterLocked,second,same⟩ := locked
  refine ⟨afterSilent,afterLocked,first,id,second,same,?_,?_⟩
  · rw [failedEntry first]
    exact fun completes => (completes rfl).1 rfl
  · rw [failedEntry second]
    exact fun completes => (completes rfl).2 rfl

end IPv4Media.ChannelSetUp
