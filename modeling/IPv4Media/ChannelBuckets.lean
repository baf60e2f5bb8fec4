import IPv4Media.MediaLibrary

/-! The buckets of the channels (medialib.c). path2entry asks mytbf_init for a bucket before
it knows whether the directory is a channel, so a scan leaves buckets that are nobody's; but
each channel has one of its own. -/
namespace IPv4Media.ChannelBuckets
open Playlist TimerModule MediaLibrary

variable {φ : Type}

structure Grown (m n : Module) : Prop where
  more : m.allocated ≤ n.allocated
  old : ∀ address < m.allocated, n.bucket address = m.bucket address

structure Placed (m n : Module) (address : Nat) : Prop where
  first : address = m.allocated
  inside : address < n.allocated
  empty : ∃ pos, n.bucket address = some ⟨tbfCps,tbfBurst,0,pos⟩

theorem grownSame (m : Module) : Grown m m := ⟨Nat.le_refl _,fun _ _ => rfl⟩

theorem grownThen {m n l : Module} (first : Grown m n) (rest : Grown n l) : Grown m l := by
  refine ⟨Nat.le_trans first.more rest.more,fun address below => ?_⟩
  exact (rest.old address (Nat.lt_of_lt_of_le below first.more)).trans (first.old address below)

theorem initGrown {m n : Module} {env : InitEnv} {address : Option Nat}
    (made : mytbfInit m env tbfCps tbfBurst = some (address,n)) :
    Grown m n ∧ ∀ a, address = some a → Placed m n a := by
  cases initSound made with
  | null loaded =>
    refine ⟨⟨Nat.le_of_eq loaded.allocated.symm,fun _ _ => by rw [loaded.bucket]⟩,?_⟩
    intro a same
    contradiction
  | made loaded pos inside free =>
    refine ⟨⟨Nat.le_succ _,fun a below => updateOther _ _ (Nat.ne_of_lt below)⟩,?_⟩
    intro a same
    cases Option.some.inj same
    exact ⟨rfl,Nat.lt_succ_self _,pos,updateSame _ _ _⟩

theorem path2entryGrown {lib lib' : MediaLib φ} {d : MediaDir φ} {res : Option (ChannelContext φ)}
    (h : path2entry lib d = some (res,lib')) :
    Grown lib.mod lib'.mod ∧ ∀ me, res = some me → Placed lib.mod lib'.mod me.tbf := by
  unfold path2entry at h
  split at h
  · cases Option.some.inj h
    exact ⟨grownSame _,fun me same => by contradiction⟩
  · split at h
    · obtain ⟨⟨tbf,mod⟩,made,h⟩ := Option.bind_eq_some_iff.mp h
      obtain ⟨grown,placed⟩ := initGrown made
      cases tbf with
      | none =>
        cases Option.some.inj h
        exact ⟨grown,fun me same => by contradiction⟩
      | some tbf =>
        simp only at h
        split at h
        · cases Option.some.inj h
          exact ⟨grown,fun me same => by contradiction⟩
        · split at h
          · cases Option.some.inj h
            exact ⟨grown,fun me same => by contradiction⟩
          · cases Option.some.inj h
            refine ⟨grown,fun me same => ?_⟩
            cases Option.some.inj same
            exact placed tbf rfl
    · cases Option.some.inj h
      exact ⟨grownSame _,fun me same => by contradiction⟩

/- Each channel has a bucket of its own, and nothing has been put into it yet. -/
structure Equipped (m n : Module) (owners : List (ChannelContext φ)) : Prop where
  grown : Grown m n
  own : ∀ ch ∈ owners, m.allocated ≤ ch.tbf ∧ ch.tbf < n.allocated ∧
    ∃ pos, n.bucket ch.tbf = some ⟨tbfCps,tbfBurst,0,pos⟩
  rising : owners.Pairwise fun a b => a.tbf < b.tbf

theorem scanEquipped {lib : MediaLib φ} {dirs : List (MediaDir φ)} {r : Scanned φ} (h : scan lib dirs = some r) :
    Equipped lib.mod r.lib.mod r.owners := by
  induction dirs generalizing lib r with
  | nil =>
    cases Option.some.inj h
    exact ⟨grownSame _,by simp,.nil⟩
  | cons d dirs ih =>
    unfold scan at h
    obtain ⟨⟨res,mid⟩,entered,h⟩ := Option.bind_eq_some_iff.mp h
    obtain ⟨grown,placed⟩ := path2entryGrown entered
    cases res with
    | none =>
      have rest := ih h
      refine ⟨grownThen grown rest.grown,fun ch member => ?_,rest.rising⟩
      obtain ⟨least,most,empty⟩ := rest.own ch member
      exact ⟨Nat.le_trans grown.more least,most,empty⟩
    | some me =>
      obtain ⟨tail,scanned,last⟩ := Option.bind_eq_some_iff.mp h
      cases Option.some.inj last
      have rest := ih scanned
      have mine := placed me rfl
      refine ⟨grownThen grown rest.grown,fun ch member => ?_,.cons (fun ch member => ?_) rest.rising⟩
      · rcases List.mem_cons.mp member with rfl | later
        · obtain ⟨pos,empty⟩ := mine.empty
          have kept := rest.grown.old _ mine.inside
          exact ⟨Nat.le_of_eq mine.first.symm,Nat.lt_of_lt_of_le mine.inside rest.grown.more,pos,kept.trans empty⟩
        · obtain ⟨least,most,empty⟩ := rest.own ch later
          exact ⟨Nat.le_trans grown.more least,most,empty⟩
      · exact Nat.lt_of_lt_of_le mine.inside (rest.own ch member).1

theorem scannedEquipped {lib : MediaLib φ} {dirs : List (MediaDir φ)} {r : Scanned φ}
    (scanned : mlibGetchnlist lib (some dirs) = some (0,r)) : Equipped lib.mod r.lib.mod r.owners := by
  obtain ⟨found,h,last⟩ := Option.bind_eq_some_iff.mp scanned
  obtain ⟨_,rfl⟩ := Prod.mk.inj (Option.some.inj last)
  exact @scanEquipped φ { lib with channel := fun _ => none, written := [] } dirs _ h

end IPv4Media.ChannelBuckets
