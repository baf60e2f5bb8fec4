import IPv4Media.ServerProgress

/-! The server lock by lock, the network and one client. With its locked sections as steps
it is Broadcast; and as long as SIGALRM has found no thread inside one of them, there is a
way on to more music at the player from wherever everybody stands. -/
namespace IPv4Media.LockedBroadcast
open Octets Proto Socket ClientThreads MediaLibrary ServerStream TimerModule Execution Interleaving Broadcast
open Receiver (Session)
open Server (Station Wire owner serverNext)
open StartUp (World Running main mainSound station staffedMain staffedReady plainDir discDir sampleWorld sampleMedia)
open TuneIn (serving discStation discListener)
open ChannelIds (IdsSuffice)
open ChannelBuckets (Equipped scannedEquipped)
open Progress (Tuning clientNext clientSound clientServer receiverListens hearPlays)
open ServerProgress (Furnished Standing)
open ServerLocks (Process Related actFollowed actSound equippedApart equippedStart deed disc)

variable {φ : Type} {st : Station φ} {mod : Module} {se : Session} {heap : Bytes}

structure Air (st : Station φ) where
  server : Process st
  client : Client
  heard : List Nat

inductive Event (st : Station φ)
  | server (e : ServerLocks.Event st)
  | hear (k : Nat)
  | client (e : ClientThreads.Event)

def onAir (st : Station φ) (mod : Module) (heap : Bytes) : Air st := ⟨ServerLocks.start st mod,initial heap,[]⟩

def next (se : Session) (s : Air st) : Event st → Option (Air st)
  | .server e => (ServerLocks.next s.server e).map fun server => { s with server }
  | .hear k => do
    let entry ← s.server.log[k]?
    if fits : entry.2.length ≤ msgChannelMax then do
      let client ← ClientThreads.next se s.client (.recvfrom (.datagram ⟨se.serverAddr,entry.2,fits⟩))
      some { s with client, heard := s.heard ++ [k] }
    else none
  | .client e => if foreign se e then (ClientThreads.next se s.client e).map fun client => { s with client } else none

inductive AirStep (se : Session) (s : Air st) : Event st → Air st → Prop where
  | server (e : ServerLocks.Event st) (server : Process st) (step : ServerLocks.next s.server e = some server) :
      AirStep se s (.server e) { s with server }
  | hear (k : Nat) (entry : Server.Thread st × Bytes) (there : s.server.log[k]? = some entry)
      (fits : entry.2.length ≤ msgChannelMax) (client : Client)
      (step : ClientThreads.next se s.client (.recvfrom (.datagram ⟨se.serverAddr,entry.2,fits⟩)) = some client) :
      AirStep se s (.hear k) { s with client, heard := s.heard ++ [k] }
  | client (e : ClientThreads.Event) (outside : foreign se e = true) (client : Client)
      (step : ClientThreads.next se s.client e = some client) : AirStep se s (.client e) { s with client }

theorem airSound {s v : Air st} {e : Event st} (h : next se s e = some v) : AirStep se s e v := by
  cases e with
  | server e =>
    obtain ⟨server,step,last⟩ := Option.map_eq_some_iff.mp h
    subst last
    exact .server e server step
  | hear k =>
    obtain ⟨entry,there,h⟩ := Option.bind_eq_some_iff.mp h
    split at h <;> try contradiction
    rename_i fits
    obtain ⟨client,step,last⟩ := Option.bind_eq_some_iff.mp h
    cases Option.some.inj last
    exact .hear k entry there fits client step
  | client e =>
    simp only [next] at h
    split at h <;> try contradiction
    rename_i outside
    obtain ⟨client,step,last⟩ := Option.map_eq_some_iff.mp h
    subst last
    exact .client e outside client step

def seen (s : Air st) : Event st → Option (Broadcast.Event st)
  | .server e => (deed s.server e).map .server
  | .hear k => some (.hear k)
  | .client e => some (.client e)

structure Follows (s : Air st) (r : Radio st) : Prop where
  server : Related s.server r.server
  client : r.client = s.client
  heard : r.heard = s.heard

theorem clientFollows {s : Air st} {r u : Radio st} {e : Broadcast.Event st} (follows : Follows s r)
    (step : clientNext st se r e = some u) : ∃ e' v, next se s e' = some v ∧ Follows v u := by
  obtain ⟨related,client,heard⟩ := follows
  have moved := radioSound (clientSound step)
  cases moved with
  | server e server served => contradiction
  | hear k entry there fits after received =>
    rw [related.log] at there
    rw [client] at received
    have made : next se s (.hear k) = some { s with client := after, heard := s.heard ++ [k] } := by
      simp only [next,there,Option.bind_eq_bind,Option.bind_some,dif_pos fits,received]
    exact ⟨.hear k,_,made,related,rfl,by rw [heard]⟩
  | client e outside after moved =>
    rw [client] at moved
    have made : next se s (.client e) = some { s with client := after } := by
      simp only [next,outside,moved,if_true,Option.map_some]
    exact ⟨.client e,_,made,related,rfl,heard⟩

theorem clientLifts {goal : Radio st → Prop} {s : Air st} {r : Radio st} (follows : Follows s r)
    (reach : CanReach (clientNext st se) goal r) :
    CanReach (next se) (fun v => ∃ u, Follows v u ∧ goal u) s := by
  obtain ⟨events,u,run,there⟩ := reach
  induction events generalizing s r with
  | nil =>
    cases Option.some.inj run
    exact reachNow ⟨_,follows,there⟩
  | cons e events ih =>
    obtain ⟨middle,step,later⟩ := Option.bind_eq_some_iff.mp run
    obtain ⟨e',v,made,after⟩ := clientFollows follows step
    exact reachStep made (ih after later)

theorem serverLifts {goal : Process st → Prop} {s : Air st} (reach : CanReach ServerLocks.next goal s.server) :
    CanReach (next se) (fun v => goal v.server ∧ v.client = s.client ∧ v.heard = s.heard) s := by
  obtain ⟨events,server,run,there⟩ := reach
  induction events generalizing s with
  | nil =>
    cases Option.some.inj run
    exact reachNow ⟨there,rfl,rfl⟩
  | cons e events ih =>
    obtain ⟨middle,step,later⟩ := Option.bind_eq_some_iff.mp run
    have made : next se s (.server e) = some { s with server := middle } := by
      simp only [next,step,Option.map_some]
    exact reachStep made (@ih { s with server := middle } later)

theorem nextFollowed {before : Module} (equipped : Equipped before mod st.owners) {s v : Air st} {r : Radio st}
    {e : Event st} (follows : Follows s r) (step : next se s e = some v) :
    ∃ u, exec (radioNext st se) r (seen s e).toList = some u ∧ Follows v u := by
  obtain ⟨related,client,heard⟩ := follows
  cases airSound step with
  | server e server made =>
    obtain ⟨w,followed,after⟩ := actFollowed (equippedApart equipped) related (actSound made)
    refine ⟨{ r with server := w },?_,after,client,heard⟩
    cases told : deed s.server e with
    | none =>
      rw [told] at followed
      cases Option.some.inj followed
      exact deedSilent (by rw [seen,told]; rfl)
    | some f =>
      rw [told] at followed
      obtain ⟨x,first,last⟩ := Option.bind_eq_some_iff.mp followed
      cases Option.some.inj last
      have moved : radioNext st se r (.server f) = some { r with server := w } := by
        simp only [radioNext,first,Option.map_some]
      exact deedFollowed (by rw [seen,told]; rfl) moved
  | hear k entry there fits after received =>
    rw [← related.log] at there
    rw [← client] at received
    have moved : radioNext st se r (.hear k) = some { r with client := after, heard := r.heard ++ [k] } := by
      simp only [radioNext,there,Option.bind_eq_bind,Option.bind_some,dif_pos fits,received]
    exact ⟨_,deedFollowed rfl moved,related,rfl,by rw [heard]⟩
  | client e outside after moved =>
    rw [← client] at moved
    have made : radioNext st se r (.client e) = some { r with client := after } := by
      simp only [radioNext,outside,moved,if_true,Option.map_some]
    exact ⟨_,deedFollowed rfl made,related,rfl,heard⟩

theorem followsRun {before : Module} (equipped : Equipped before mod st.owners) {es : List (Event st)} {s : Air st}
    (run : exec (next se) (onAir st mod heap) es = some s) :
    ∃ r, exec (radioNext st se) (Broadcast.onAir st heap) (deeds (next se) seen (onAir st mod heap) es) = some r ∧
      Follows s r := by
  have first : Follows (onAir st mod heap) (Broadcast.onAir st heap) := ⟨equippedStart equipped,rfl,rfl⟩
  exact refines (fun _ _ _ _ follows step => nextFollowed equipped follows step) first run

def Spared (s : Air st) (e : Event st) (_ : Air st) : Prop :=
  ∀ t, e = .server (.timer (.alarm t)) → TimerThreads.held (s.server.timer.pc t) = []

theorem serverAlong {es : List (Event st)} {s : Air st} (run : exec (next se) (onAir st mod heap) es = some s)
    (along : Along (next se) Spared (onAir st mod heap) es) :
    ∃ fs, exec ServerLocks.next (ServerLocks.start st mod) fs = some s.server ∧
      Along ServerLocks.next ServerProgress.Spared (ServerLocks.start st mod) fs := by
  refine invariantAlong (I := fun s : Air st => ∃ fs, exec ServerLocks.next (ServerLocks.start st mod) fs = some s.server ∧
    Along ServerLocks.next ServerProgress.Spared (ServerLocks.start st mod) fs) (P := Spared) ⟨[],rfl,True.intro⟩ ?_ run along
  intro s e v before spared step
  obtain ⟨fs,served,quiet⟩ := before
  cases airSound step with
  | server e server made =>
    refine ⟨fs ++ [e],execSnoc.mpr ⟨_,served,made⟩,(alongSnoc served made).mpr ⟨quiet,fun t alarm => ?_⟩⟩
    subst alarm
    exact spared t rfl
  | hear k entry there fits after received => exact ⟨fs,served,quiet⟩
  | client e outside after moved => exact ⟨fs,served,quiet⟩

theorem channelPlays {k : Fin st.owners.length} (furnished : Furnished st mod k) (listens : Listens st se k)
    {es : List (Event st)} {s : Air st} (run : exec (next se) (onAir st mod heap) es = some s)
    (along : Along (next se) Spared (onAir st mod heap) es) (running : (s.server.snder k).running = true)
    (receiving : s.client.receiver ≠ .left) (go : s.client.stopFlag = false) :
    CanReach (next se) (fun t => s.client.pipe.length < t.client.pipe.length) s := by
  obtain ⟨before,equipped⟩ := furnished.equipped
  have speaks := ServerProgress.channelSpeaks furnished ⟨serverAlong run along,running⟩
  obtain ⟨events,v,sends,spoken,same,_⟩ := @serverLifts _ _ se _ s speaks
  have comes : CanReach (next se) (fun t => v = t) s := ⟨events,v,sends,rfl⟩
  refine reachThen comes ?_
  rintro _ rfl
  have whole : exec (next se) (onAir st mod heap) (es ++ events) = some v := by
    rw [execAppend,run]
    exact sends
  obtain ⟨r,told,follows⟩ := followsRun equipped whole
  -- What the channel's thread has sent last is on the wire of Broadcast.
  have there : ∃ (i : Nat) (d : Bytes), r.server.log[i]? = some (some k,d) ∧ channelDataOffset < d.length := by
    obtain ⟨more,d,sent,long⟩ := spoken.sent
    obtain ⟨es',served⟩ := (tunedRun told).server
    have mine := loggedRun Server.historyGrows (Server.startLogged st) served (some k)
    obtain ⟨b,_,flow,_⟩ := follows.server.holds k
    rw [flow] at mine
    obtain ⟨i,found⟩ := @entryOf _ _ _ (some k) r.server.log d (by rw [mine]; simp [Server.history,sent])
    exact ⟨i,d,found,long⟩
  obtain ⟨i,d,there,long⟩ := there
  have tuning : Tuning se heap s.client.pipe.length r :=
    ⟨⟨_,told⟩,by rw [follows.client,same]; exact go,by rw [follows.client,same]⟩
  have plays : CanReach (clientNext st se) (fun u => s.client.pipe.length < u.client.pipe.length) r := by
    refine reachThen (receiverListens tuning (by rw [follows.client,same]; exact receiving)) fun u listening => ?_
    refine hearPlays listens listening.tuning listening.receiver (k := i) (d := d) ?_ long
    rw [listening.same]
    exact there
  refine reachThen (clientLifts follows plays) fun t played => reachNow ?_
  obtain ⟨u,heard,longer⟩ := played
  rw [← heard.client]
  exact longer

/- The server of ServerProgress, its thread waiting for tokens and alrm_handle on main with
the bucket's mutex, and a client that has heard nothing yet. -/
def quietEvening : List (Event discStation) :=
  ServerProgress.handled.map .server ++ [.client (.receiverStart true),.client .receiverLoop]

def sparedNow (s : Air discStation) : Event discStation → Bool
  | .server e => ServerProgress.sparedNow s.server e
  | _ => true

theorem nowSpared (s : Air discStation) (e : Event discStation) (u : Air discStation) (now : sparedNow s e = true) :
    Spared s e u := by
  rintro t rfl
  exact beq_iff_eq.mp now

theorem discListens : Listens discStation discListener disc := by
  refine ⟨rfl,rfl,?_,?_⟩
  · rintro ⟨k,below⟩ _
    exact Fin.ext (Nat.lt_one_iff.mp below)
  · intro e rest listed
    obtain ⟨rfl,_⟩ := List.cons.inj listed
    decide

end IPv4Media.LockedBroadcast
