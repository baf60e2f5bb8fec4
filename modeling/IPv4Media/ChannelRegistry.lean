import IPv4Media.Library.Execution
import IPv4Media.Proto
import IPv4Media.TimerModule

/-! The table of channel threads (thr_channel.c): thr_channel_create appends at
tid_nextpos, thr_channel_destroy and thr_channel_destroyall mark a slot with -1, which
the unsigned chnid turns into 255. Slot numbers are not checked, so the table is a
function on all of them and every subscript is kept. pthread calls succeed. -/
namespace IPv4Media.ChannelRegistry
open Proto TimerModule Execution

/- tid is none in static storage that no create has written. -/
structure ThrChannelEntry where
  chnid : UInt8
  tid : Option Nat
  deriving DecidableEq, Repr

/- threads lists the channel of each thread ever created; a thread is known by its
position there. -/
structure Registry where
  tidNextpos : Nat
  thrChannel : Nat → ThrChannelEntry
  threads : List UInt8
  cancels : Nat → Nat
  joins : Nat → Nat
  subscripts : List Nat

def initial : Registry := ⟨0,fun _ => ⟨0,none⟩,[],fun _ => 0,fun _ => 0,[]⟩

def access (s : Registry) (i : Nat) : Registry := { s with subscripts := s.subscripts ++ [i] }

def thrChannelCreate (s : Registry) (chnid : UInt8) : Registry :=
  { access s s.tidNextpos with
    thrChannel := update s.thrChannel s.tidNextpos ⟨chnid,some s.threads.length⟩
    threads := s.threads ++ [chnid]
    tidNextpos := s.tidNextpos + 1 }

def cancelJoin (s : Registry) (i : Nat) : Registry :=
  { s with
    cancels := fun t => s.cancels t + if (s.thrChannel i).tid = some t then 1 else 0
    joins := fun t => s.joins t + if (s.thrChannel i).tid = some t then 1 else 0
    thrChannel := update s.thrChannel i { s.thrChannel i with chnid := -1 } }

def destroyFrom (chnid : UInt8) : Nat → Nat → Registry → Registry
  | 0, _, s => s
  | n+1, i, s =>
    if (s.thrChannel i).chnid = chnid then cancelJoin (access s i) i
    else destroyFrom chnid n (i+1) (access s i)

def thrChannelDestroy (s : Registry) (chnid : UInt8) : Registry := destroyFrom chnid channum 0 s

def destroyallFrom : Nat → Nat → Registry → Registry
  | 0, _, s => s
  | n+1, i, s =>
    if (s.thrChannel i).chnid > 0 then destroyallFrom n (i+1) (cancelJoin (access s i) i)
    else destroyallFrom n (i+1) (access s i)

def thrChannelDestroyall (s : Registry) : Registry := destroyallFrom channum 0 s

inductive Call where
  | create (chnid : UInt8)
  | destroy (chnid : UInt8)
  | destroyall
  deriving DecidableEq, Repr

def ChannelId (chnid : UInt8) : Prop := minchnid ≤ chnid.toNat ∧ chnid.toNat ≤ maxchnid
instance (chnid : UInt8) : Decidable (ChannelId chnid) := by
  unfold ChannelId; infer_instance

def Live (s : Registry) (t : Nat) (chnid : UInt8) : Prop := s.threads[t]? = some chnid ∧ s.joins t = 0
instance (s : Registry) (t : Nat) (chnid : UInt8) : Decidable (Live s t chnid) := by
  unfold Live; infer_instance

def Unused (s : Registry) (chnid : UInt8) : Prop := ∀ t < s.threads.length, ¬ Live s t chnid
instance (s : Registry) (chnid : UInt8) : Decidable (Unused s chnid) := by
  unfold Unused; infer_instance

def callNext (s : Registry) : Call → Option Registry
  | .create chnid => if ChannelId chnid ∧ Unused s chnid then some (thrChannelCreate s chnid) else none
  | .destroy chnid => if ChannelId chnid then some (thrChannelDestroy s chnid) else none
  | .destroyall => some (thrChannelDestroyall s)

/- As long as no mark is taken for a channel, slot i belongs to thread i. -/
structure Registered (s : Registry) : Prop where
  next : s.tidNextpos = s.threads.length
  room : s.threads.length ≤ channum
  ids : ∀ (t : Nat) (chnid : UInt8), s.threads[t]? = some chnid → ChannelId chnid
  slot : ∀ (t : Nat) (chnid : UInt8), s.threads[t]? = some chnid →
    s.thrChannel t = ⟨if s.joins t = 0 then chnid else -1,some t⟩
  blank : ∀ i, s.threads.length ≤ i → s.thrChannel i = ⟨0,none⟩
  once : ∀ t, s.joins t ≤ 1
  fresh : ∀ t, s.threads.length ≤ t → s.joins t = 0
  same : s.cancels = s.joins
  apart : ∀ t u chnid, Live s t chnid → Live s u chnid → t = u
  inside : ∀ i ∈ s.subscripts, i < channum

/- What a call has to do: stay in the table, take each thread down once, and leave
the right threads down. -/
structure Faithful (s : Registry) (c : Call) (t : Registry) : Prop where
  inside : ∀ i ∈ t.subscripts, i < channum
  once : ∀ k, t.cancels k ≤ 1 ∧ t.joins k ≤ 1
  destroy : ∀ chnid, c = .destroy chnid → ∀ k,
    t.joins k = s.joins k + if Live s k chnid then 1 else 0
  destroyall : c = .destroyall → ∀ k < t.threads.length, t.joins k = 1

/- The call finds a free slot; a destroyall finds no mark, its own included. -/
def Orderly (s : Registry) : Call → Registry → Prop
  | .create _, _ => s.tidNextpos < channum
  | .destroy _, _ => True
  | .destroyall, _ => ∀ i < channum, (s.thrChannel i).chnid ≠ -1

instance (s : Registry) (c : Call) (t : Registry) : Decidable (Orderly s c t) := by
  cases c <;> (unfold Orderly; infer_instance)

theorem registeredInitial : Registered initial :=
  ⟨rfl,by decide,by simp [initial],by simp [initial],fun _ _ => rfl,by simp [initial],fun _ _ => rfl,rfl,
    by simp [initial,Live],by simp [initial]⟩

theorem channelIdProper {chnid : UInt8} (id : ChannelId chnid) : 0 < chnid ∧ chnid ≠ -1 := by
  obtain ⟨low,high⟩ := id
  simp only [minchnid,maxchnid,channum] at low high
  refine ⟨UInt8.lt_iff_toNat_lt.mpr low,?_⟩
  rintro rfl
  exact absurd high (by decide)

inductive DestroyStep (chnid : UInt8) (n i : Nat) (s : Registry) : Registry → Prop where
  | absent (none_ : ∀ j, i ≤ j → j < i + n → (s.thrChannel j).chnid ≠ chnid) :
      DestroyStep chnid n i s { s with subscripts := s.subscripts ++ List.range' i n }
  | found (j : Nat) (low : i ≤ j) (high : j < i + n) (here : (s.thrChannel j).chnid = chnid) :
      DestroyStep chnid n i s
        (cancelJoin { s with subscripts := s.subscripts ++ List.range' i (j - i + 1) } j)

theorem destroySource {chnid : UInt8} {n i : Nat} {s t : Registry} (h : destroyFrom chnid n i s = t) :
    DestroyStep chnid n i s t := by
  induction n generalizing i s with
  | zero =>
    subst t
    have step := @DestroyStep.absent chnid 0 i s (fun j low high => by omega)
    rwa [List.range'_zero,List.append_nil] at step
  | succ n ih =>
    rw [destroyFrom] at h
    split at h
    · rename_i here
      subst t
      have step := @DestroyStep.found chnid (n+1) i s i (Nat.le_refl i) (by omega) here
      rwa [Nat.sub_self] at step
    · rename_i other
      cases ih h with
      | absent none_ =>
        have step := @DestroyStep.absent chnid (n+1) i s (fun j low high => by
          by_cases first : j = i
          · subst first; exact other
          · exact none_ j (by omega) (by omega))
        rwa [List.range'_succ,← List.singleton_append,← List.append_assoc] at step
      | found j low high here =>
        have step := @DestroyStep.found chnid (n+1) i s j (by omega) (by omega) here
        have size : j - i + 1 = j - (i+1) + 1 + 1 := by omega
        rwa [size,List.range'_succ,← List.singleton_append,← List.append_assoc] at step

def sweep (s : Registry) (i : Nat) : Registry :=
  if (s.thrChannel i).chnid > 0 then cancelJoin (access s i) i else access s i

theorem destroyallNext (n i : Nat) (s : Registry) :
    destroyallFrom (n+1) i s = destroyallFrom n (i+1) (sweep s i) := by
  rw [destroyallFrom,sweep]
  split <;> rfl

def taken (n i : Nat) (s : Registry) (k : Nat) : Nat :=
  if i ≤ k ∧ k < i + n ∧ 0 < (s.thrChannel k).chnid then 1 else 0

structure Swept (n i : Nat) (s t : Registry) : Prop where
  subscripts : t.subscripts = s.subscripts ++ List.range' i n
  threads : t.threads = s.threads
  next : t.tidNextpos = s.tidNextpos
  joins : ∀ k, t.joins k = s.joins k + taken n i s k
  cancels : ∀ k, t.cancels k = s.cancels k + taken n i s k
  slot : ∀ k, t.thrChannel k = if taken n i s k = 1 then { s.thrChannel k with chnid := -1 } else s.thrChannel k

theorem sweptOne {s : Registry} {i : Nat} (own : 0 < (s.thrChannel i).chnid → (s.thrChannel i).tid = some i) :
    Swept 1 i s (sweep s i) := by
  by_cases used : 0 < (s.thrChannel i).chnid
  · have mine : (s.thrChannel i).tid = some i := own used
    have count : ∀ k, (if (s.thrChannel i).tid = some k then 1 else 0) = taken 1 i s k := by
      intro k
      rw [mine,taken]
      by_cases here : k = i
      · subst here
        simp [used]
      · rw [if_neg (by simpa using Ne.symm here),if_neg (by omega)]
    rw [sweep,if_pos used]
    refine ⟨rfl,rfl,rfl,fun k => congrArg _ (count k),fun k => congrArg _ (count k),?_⟩
    intro k
    by_cases here : k = i
    · subst here
      simp [cancelJoin,access,taken,used]
    · have other : taken 1 i s k = 0 := if_neg (by omega)
      rw [other]
      exact updateOther _ _ here
  · have none_ : ∀ k, taken 1 i s k = 0 := by
      intro k
      refine if_neg ?_
      rintro ⟨low,high,some_⟩
      have here : k = i := by omega
      subst here
      exact used some_
    rw [sweep,if_neg used]
    exact ⟨rfl,rfl,rfl,fun k => by rw [none_]; rfl,fun k => by rw [none_]; rfl,fun k => by rw [none_]; rfl⟩

theorem sweptMore {n i : Nat} {s m t : Registry} (first : Swept 1 i s m) (rest : Swept n (i+1) m t) :
    Swept (n+1) i s t := by
  have later : ∀ k, taken n (i+1) m k = if k = i then 0 else taken n (i+1) s k := by
    intro k
    by_cases here : k = i
    · rw [if_pos here]
      exact if_neg (by omega)
    · have same : m.thrChannel k = s.thrChannel k := by
        rw [first.slot k,taken,if_neg (by omega : ¬ (i ≤ k ∧ k < i + 1 ∧ _))]
        rfl
      rw [if_neg here,taken,same,taken]
  have total : ∀ k, taken (n+1) i s k = taken 1 i s k + taken n (i+1) m k := by
    intro k
    rw [later]
    unfold taken
    by_cases here : k = i
    · subst here
      simp
    · have low : i ≤ k ↔ i + 1 ≤ k := by omega
      have high : k < i + (n+1) ↔ k < i + 1 + n := by omega
      have apart : ¬ (i ≤ k ∧ k < i + 1 ∧ 0 < (s.thrChannel k).chnid) := by omega
      rw [if_neg here,if_neg apart,Nat.zero_add]
      simp only [low,high]
  refine ⟨?_,rest.threads.trans first.threads,rest.next.trans first.next,?_,?_,?_⟩
  · rw [rest.subscripts,first.subscripts,List.append_assoc,List.range'_succ]
    rfl
  · intro k
    rw [rest.joins,first.joins,total,Nat.add_assoc]
  · intro k
    rw [rest.cancels,first.cancels,total,Nat.add_assoc]
  · intro k
    rw [rest.slot,first.slot,total,later]
    by_cases here : k = i
    · simp [here]
    · have apart : taken 1 i s k = 0 := if_neg (by omega)
      simp [here,apart]

theorem destroyallSwept {n i : Nat} {s : Registry}
    (own : ∀ k, i ≤ k → 0 < (s.thrChannel k).chnid → (s.thrChannel k).tid = some k) :
    Swept n i s (destroyallFrom n i s) := by
  induction n generalizing i s with
  | zero =>
    have empty : ∀ k, taken 0 i s k = 0 := fun k => if_neg (by omega)
    exact ⟨by simp [destroyallFrom],rfl,rfl,fun k => by rw [empty]; rfl,fun k => by rw [empty]; rfl,
      fun k => by rw [empty]; rfl⟩
  | succ n ih =>
    have first := sweptOne (own i (Nat.le_refl i))
    rw [destroyallNext]
    refine sweptMore first (ih ?_)
    intro k low
    have apart : taken 1 i s k = 0 := if_neg (by omega)
    rw [first.slot,apart]
    exact own k (by omega)

theorem slotUsed {s : Registry} (registered : Registered s) (k : Nat) :
    0 < (s.thrChannel k).chnid ↔ k < s.threads.length := by
  constructor
  · intro used
    by_contra past
    rw [registered.blank k (by omega)] at used
    exact absurd used (by decide)
  · intro inside
    have at_ := registered.slot k _ (List.getElem?_eq_getElem inside)
    have id := registered.ids k _ (List.getElem?_eq_getElem inside)
    rw [at_]
    simp only
    split
    · exact (channelIdProper id).1
    · decide

theorem slotOwn {s : Registry} (registered : Registered s) (k : Nat) (used : 0 < (s.thrChannel k).chnid) :
    (s.thrChannel k).tid = some k := by
  have inside := (slotUsed registered k).mp used
  rw [registered.slot k _ (List.getElem?_eq_getElem inside)]

theorem slotLive {s : Registry} (registered : Registered s) {chnid : UInt8} (id : ChannelId chnid) (k : Nat) :
    (s.thrChannel k).chnid = chnid ↔ Live s k chnid := by
  have proper := channelIdProper id
  constructor
  · intro same
    have inside := (slotUsed registered k).mp (by rw [same]; exact proper.1)
    have there : s.threads[k]? = some s.threads[k] := List.getElem?_eq_getElem inside
    have at_ := registered.slot k _ there
    rw [at_] at same
    simp only at same
    split at same
    · rename_i alive
      exact ⟨by rw [there,same],alive⟩
    · exact absurd same.symm proper.2
  · rintro ⟨there,alive⟩
    rw [registered.slot k _ there,if_pos alive]

theorem marked {s : Registry} (registered : Registered s) (k : Nat) :
    (s.thrChannel k).chnid = -1 ↔ s.joins k = 1 := by
  by_cases inside : k < s.threads.length
  · have there : s.threads[k]? = some s.threads[k] := List.getElem?_eq_getElem inside
    rw [registered.slot k _ there]
    have most := registered.once k
    by_cases alive : s.joins k = 0
    · have proper := channelIdProper (registered.ids k _ there)
      simp only [if_pos alive]
      exact iff_of_false proper.2 (by omega)
    · simp only [if_neg alive]
      exact iff_of_true trivial (by omega)
  · rw [registered.blank k (by omega),registered.fresh k (by omega)]
    exact iff_of_false (by decide) (by decide)

theorem registeredCreate {s : Registry} {chnid : UInt8} (registered : Registered s) (id : ChannelId chnid)
    (unused : Unused s chnid) (room : s.tidNextpos < channum) : Registered (thrChannelCreate s chnid) := by
  have next := registered.next
  have old : ∀ t c, (s.threads ++ [chnid])[t]? = some c →
      s.threads[t]? = some c ∧ t < s.threads.length ∨ t = s.threads.length ∧ c = chnid := by
    intro t c there
    rcases Nat.lt_trichotomy t s.threads.length with before | same | past
    · rw [List.getElem?_append_left before] at there
      exact .inl ⟨there,before⟩
    · subst same
      rw [List.getElem?_concat_length] at there
      exact .inr ⟨rfl,(Option.some.inj there).symm⟩
    · rw [List.getElem?_eq_none (by simp only [List.length_append,List.length_singleton]; omega)] at there
      cases there
  have size : (s.threads ++ [chnid]).length = s.threads.length + 1 := List.length_append
  refine ⟨?_,?_,?_,?_,?_,registered.once,?_,registered.same,?_,?_⟩
  · simp only [thrChannelCreate,size,next]
  · simp only [thrChannelCreate,size]; omega
  · intro t c there
    rcases old t c there with ⟨before,_⟩ | ⟨_,rfl⟩
    · exact registered.ids t c before
    · exact id
  · intro t c there
    rcases old t c there with ⟨before,inside⟩ | ⟨rfl,rfl⟩
    · simp only [thrChannelCreate,access]
      rw [updateOther _ _ (by omega : t ≠ s.tidNextpos)]
      exact registered.slot t c before
    · have alive : (thrChannelCreate s c).joins s.threads.length = 0 := registered.fresh _ (Nat.le_refl _)
      rw [if_pos alive]
      simp only [thrChannelCreate,access,next]
      exact updateSame _ _ _
  · intro i past
    simp only [thrChannelCreate,access,size] at past ⊢
    rw [updateOther _ _ (by omega : i ≠ s.tidNextpos)]
    exact registered.blank i (by omega)
  · intro t past
    simp only [thrChannelCreate,access,size] at past ⊢
    exact registered.fresh t (by omega)
  · rintro t u c ⟨thereT,aliveT⟩ ⟨thereU,aliveU⟩
    rcases old t c thereT with ⟨beforeT,insideT⟩ | ⟨rfl,rfl⟩
    · rcases old u c thereU with ⟨beforeU,_⟩ | ⟨rfl,rfl⟩
      · exact registered.apart t u c ⟨beforeT,aliveT⟩ ⟨beforeU,aliveU⟩
      · exact absurd ⟨beforeT,aliveT⟩ (unused t insideT)
    · rcases old u c thereU with ⟨beforeU,insideU⟩ | ⟨rfl,_⟩
      · exact absurd ⟨beforeU,aliveU⟩ (unused u insideU)
      · rfl
  · intro i member
    rcases List.mem_append.mp member with before | last
    · exact registered.inside i before
    · rw [List.mem_singleton.mp last]
      exact room

theorem registeredDestroy {s t : Registry} {chnid : UInt8} (registered : Registered s) (id : ChannelId chnid)
    (step : DestroyStep chnid channum 0 s t) : Registered t := by
  cases step with
  | absent none_ =>
    refine ⟨registered.next,registered.room,registered.ids,registered.slot,registered.blank,registered.once,
      registered.fresh,registered.same,registered.apart,?_⟩
    intro i member
    rcases List.mem_append.mp member with before | new
    · exact registered.inside i before
    · have range := List.mem_range'_1.mp new
      omega
  | found j low high here =>
    have live := (slotLive registered id j).mp here
    have own : (s.thrChannel j).tid = some j :=
      slotOwn registered j (by rw [here]; exact (channelIdProper id).1)
    have inside : j < s.threads.length := (List.getElem?_eq_some_iff.mp live.1).1
    have count : ∀ k, (if (s.thrChannel j).tid = some k then 1 else 0) = if j = k then 1 else 0 := by
      intro k
      rw [own]
      simp only [Option.some.injEq]
    refine ⟨registered.next,registered.room,registered.ids,?_,?_,?_,?_,?_,?_,?_⟩
    · intro k c there
      have at_ := registered.slot k c there
      simp only [cancelJoin,count]
      by_cases same : k = j
      · subst same
        rw [updateSame,at_]
        simp
      · rw [updateOther _ _ same,at_]
        simp [Ne.symm same]
    · intro k past
      simp only [cancelJoin] at past ⊢
      rw [updateOther _ _ (by omega : k ≠ j)]
      exact registered.blank k past
    · intro k
      have most := registered.once k
      simp only [cancelJoin,count]
      split
      · rename_i same
        have gone := live.2
        rw [same] at gone
        omega
      · omega
    · intro k past
      simp only [cancelJoin,count] at past ⊢
      rw [registered.fresh k past,if_neg (by omega)]
    · simp only [cancelJoin,registered.same]
    · rintro k u c ⟨thereK,aliveK⟩ ⟨thereU,aliveU⟩
      simp only [cancelJoin,count] at aliveK aliveU
      exact registered.apart k u c ⟨thereK,by omega⟩ ⟨thereU,by omega⟩
    · intro i member
      rcases List.mem_append.mp member with before | new
      · exact registered.inside i before
      · have range := List.mem_range'_1.mp new
        omega

theorem registeredSwept {s t : Registry} (registered : Registered s) (swept : Swept channum 0 s t)
    (whole : ∀ k < s.threads.length, s.joins k = 0) : Registered t := by
  have room := registered.room
  have hit : ∀ k, taken channum 0 s k = if k < s.threads.length then 1 else 0 := by
    intro k
    rw [taken]
    simp only [slotUsed registered k,Nat.zero_le,true_and,Nat.zero_add]
    by_cases inside : k < s.threads.length
    · rw [if_pos ⟨by omega,inside⟩,if_pos inside]
    · rw [if_neg (fun both => inside both.2),if_neg inside]
  have down : ∀ k < s.threads.length, t.joins k = 1 := by
    intro k inside
    rw [swept.joins,whole k inside,hit,if_pos inside]
  have kept : ∀ k, s.threads.length ≤ k → t.joins k = 0 := by
    intro k past
    rw [swept.joins,registered.fresh k past,hit,if_neg (by omega)]
  have nobody : ∀ k c, ¬ Live t k c := by
    rintro k c ⟨there,alive⟩
    rw [swept.threads] at there
    have inside : k < s.threads.length := (List.getElem?_eq_some_iff.mp there).1
    rw [down k inside] at alive
    omega
  refine ⟨by rw [swept.next,swept.threads]; exact registered.next,by rw [swept.threads]; exact room,
    ?_,?_,?_,?_,?_,?_,?_,?_⟩
  · rw [swept.threads]
    exact registered.ids
  · intro k c there
    rw [swept.threads] at there
    have inside : k < s.threads.length := (List.getElem?_eq_some_iff.mp there).1
    have hitK : taken channum 0 s k = 1 := by rw [hit,if_pos inside]
    rw [swept.slot,if_pos hitK,down k inside,registered.slot k c there]
    rfl
  · intro k past
    rw [swept.threads] at past
    have missK : taken channum 0 s k = 0 := by rw [hit,if_neg (by omega)]
    rw [swept.slot,missK,registered.blank k past]
    rfl
  · intro k
    by_cases inside : k < s.threads.length
    · rw [down k inside]
    · rw [kept k (by omega)]
      omega
  · intro k past
    rw [swept.threads] at past
    exact kept k past
  · funext k
    rw [swept.cancels,swept.joins,registered.same]
  · intro k u c live
    exact absurd live (nobody k c)
  · intro i member
    rw [swept.subscripts] at member
    rcases List.mem_append.mp member with before | new
    · exact registered.inside i before
    · have range := List.mem_range'_1.mp new
      omega

inductive CallStep (s : Registry) : Call → Registry → Prop where
  | create (chnid : UInt8) (id : ChannelId chnid) (unused : Unused s chnid) :
      CallStep s (.create chnid) (thrChannelCreate s chnid)
  | destroy (chnid : UInt8) (t : Registry) (id : ChannelId chnid) (step : DestroyStep chnid channum 0 s t) :
      CallStep s (.destroy chnid) t
  | destroyall : CallStep s .destroyall (thrChannelDestroyall s)

theorem callSound {s c t} (h : callNext s c = some t) : CallStep s c t := by
  cases c with
  | create chnid =>
    simp only [callNext] at h
    split at h <;> try contradiction
    rename_i guard
    cases Option.some.inj h
    exact .create chnid guard.1 guard.2
  | destroy chnid =>
    simp only [callNext] at h
    split at h <;> try contradiction
    rename_i id
    exact .destroy chnid t id (destroySource (Option.some.inj h))
  | destroyall =>
    cases Option.some.inj h
    exact .destroyall

theorem sweptAll {s : Registry} (registered : Registered s) : Swept channum 0 s (thrChannelDestroyall s) :=
  destroyallSwept fun k _ used => slotOwn registered k used

theorem wholeTable {s : Registry} (registered : Registered s) :
    (∀ i < channum, (s.thrChannel i).chnid ≠ -1) ↔ ∀ k < s.threads.length, s.joins k = 0 := by
  have room := registered.room
  constructor
  · intro clean k inside
    have most := registered.once k
    have other : s.joins k ≠ 1 := fun joined => clean k (by omega) ((marked registered k).mpr joined)
    omega
  · intro whole i inside gone
    have joined := (marked registered i).mp gone
    by_cases used : i < s.threads.length
    · rw [whole i used] at joined
      omega
    · rw [registered.fresh i (by omega)] at joined
      omega

theorem registeredStep {s c t} (registered : Registered s) (orderly : Orderly s c t)
    (step : callNext s c = some t) : Registered t := by
  cases callSound step with
  | create chnid id unused => exact registeredCreate registered id unused orderly
  | destroy chnid t id step => exact registeredDestroy registered id step
  | destroyall => exact registeredSwept registered (sweptAll registered) ((wholeTable registered).mp orderly)

theorem destroyJoins {s t : Registry} {chnid : UInt8} (registered : Registered s) (id : ChannelId chnid)
    (step : DestroyStep chnid channum 0 s t) (k : Nat) :
    t.joins k = s.joins k + if Live s k chnid then 1 else 0 := by
  cases step with
  | absent none_ =>
    have dead : ¬ Live s k chnid := by
      intro live
      have inside : k < s.threads.length := (List.getElem?_eq_some_iff.mp live.1).1
      have room := registered.room
      exact none_ k (Nat.zero_le _) (by omega) ((slotLive registered id k).mpr live)
    rw [if_neg dead]
    rfl
  | found j low high here =>
    have live := (slotLive registered id j).mp here
    have own := slotOwn registered j (by rw [here]; exact (channelIdProper id).1)
    have count : (if (s.thrChannel j).tid = some k then 1 else 0) = if Live s k chnid then 1 else 0 := by
      rw [own]
      by_cases same : j = k
      · subst same
        rw [if_pos rfl,if_pos live]
      · rw [if_neg (by simpa using same),if_neg (fun other => same (registered.apart j k chnid live other))]
    exact congrArg _ count

theorem faithfulStep {s c t} (registered : Registered s) (step : callNext s c = some t) :
    Faithful s c t ↔ Orderly s c t := by
  constructor
  · intro faithful
    cases callSound step with
    | create chnid id unused =>
      exact faithful.inside _ (List.mem_append_right _ (List.mem_singleton_self _))
    | destroy chnid t id step => trivial
    | destroyall =>
      refine (wholeTable registered).mpr ?_
      intro k inside
      have room := registered.room
      have used := (slotUsed registered k).mpr inside
      have most := (faithful.once k).2
      have hit : taken channum 0 s k = 1 := if_pos ⟨Nat.zero_le _,by omega,used⟩
      rw [(sweptAll registered).joins,hit] at most
      omega
  · intro orderly
    have after := registeredStep registered orderly step
    refine ⟨after.inside,fun k => ⟨by rw [after.same]; exact after.once k,after.once k⟩,?_,?_⟩
    · rintro chnid rfl k
      cases callSound step with
      | destroy _ t id step => exact destroyJoins registered id step k
    · rintro rfl k inside
      cases callSound step with
      | destroyall =>
        have swept := sweptAll registered
        rw [swept.threads] at inside
        have room := registered.room
        have hit : taken channum 0 s k = 1 :=
          if_pos ⟨Nat.zero_le _,by omega,(slotUsed registered k).mpr inside⟩
        rw [swept.joins,hit,(wholeTable registered).mp orderly k inside]

theorem channelRegistry {calls s} (run : exec callNext initial calls = some s) :
    Along callNext Faithful initial calls ↔ Along callNext Orderly initial calls :=
  alongIff registeredInitial (fun _ _ _ registered step => faithfulStep registered step)
    (fun _ _ _ registered orderly step => registeredStep registered orderly step) run

def orderlyCalls : List Call := [.create 1,.create 2,.destroyall,.create 1,.destroy 1]

theorem orderlySound (s : Registry) (c : Call) (t : Registry) (now : decide (Orderly s c s) = true) :
    Orderly s c t := by
  have orderly := of_decide_eq_true now
  cases c with
  | create chnid => exact orderly
  | destroy chnid => exact orderly
  | destroyall => exact orderly

theorem orderlyFaithful : ∃ s, exec callNext initial orderlyCalls = some s ∧
    (s.joins 0,s.joins 1,s.joins 2) = (1,1,1) ∧ Along callNext Faithful initial orderlyCalls := by
  have orderly : Along callNext Orderly initial orderlyCalls := alongChecked orderlySound (by decide +kernel)
  have seen : (exec callNext initial orderlyCalls).map (fun s => (s.joins 0,s.joins 1,s.joins 2)) =
      some (1,1,1) := by decide +kernel
  obtain ⟨s,run,same⟩ := Option.map_eq_some_iff.mp seen
  exact ⟨s,run,same,(channelRegistry run).mpr orderly⟩

def destroyedOne : Registry := thrChannelDestroy (thrChannelCreate initial 1) 1

theorem joinedTwice : ∃ s, exec callNext initial [.create 1,.destroy 1,.destroyall] = some s ∧
    s.joins 0 = 2 ∧ ¬ Along callNext Faithful initial [.create 1,.destroy 1,.destroyall] := by
  have created := registeredCreate registeredInitial (by decide : ChannelId 1) (by decide) (by decide)
  have registered : Registered destroyedOne := registeredStep (c := .destroy 1) created trivial rfl
  have twice : (thrChannelDestroyall destroyedOne).joins 0 = 2 := by
    rw [(sweptAll registered).joins]
    decide
  refine ⟨thrChannelDestroyall destroyedOne,rfl,twice,?_⟩
  intro along
  obtain ⟨_,along⟩ := (alongCons rfl).mp along
  obtain ⟨_,along⟩ := (alongCons rfl).mp along
  have last : Faithful destroyedOne .destroyall (thrChannelDestroyall destroyedOne) := ((alongCons rfl).mp along).1
  have most := (last.once 0).2
  rw [twice] at most
  exact absurd most (by decide)

end IPv4Media.ChannelRegistry
