import IPv4Media.Broadcast
import Mathlib.Data.List.Flatten
import Mathlib.Data.List.Sort

/-! Any number of listeners to one server. Each has a client and a network of its own, so
the same datagram may be lost to one, come late to another and twice to a third. -/
namespace IPv4Media.Audience
open Octets Proto Receiver ClientRing ClientThreads ClientStream ReceiverBooks ChannelSender ServerStream MediaLibrary
open LossAccounting Execution Interleaving Server Broadcast

variable {φ ι : Type} {st : Station φ}

/- heard are the places on the wire a listener's recvfrom returned. -/
structure Listening (st : Station φ) (ι : Type) where
  server : Wire st
  client : ι → Client
  heard : ι → List Nat

inductive Event (st : Station φ) (ι : Type)
  | server (e : Sigma (Label st))
  | hear (i : ι) (k : Nat)
  | client (i : ι) (e : ClientThreads.Event)

def opening (st : Station φ) (heap : ι → Bytes) : Listening st ι := ⟨start st,fun i => initial (heap i),fun _ => []⟩

def radio (s : Listening st ι) (i : ι) : Radio st := ⟨s.server,s.client i,s.heard i⟩

/- What the server has sent of a channel, and what a player has got or will get. -/
def stream (st : Station φ) (c : Fin st.owners.length) (s : Listening st ι) : Bytes :=
  (payloads (ofMachine (some c) s.server.log)).flatten

def got (s : Listening st ι) (i : ι) : Bytes := (s.client i).pipe ++ unwritten (s.client i) ++ queue (s.client i).rb

theorem streamNumbers (c : Fin st.owners.length) (s : Listening st ι) (i : ι) :
    stream st c s = ((List.range (ofMachine (some c) s.server.log).length).map (payloadAt st c (radio s i))).flatten := by
  have all := payloadsRange st c (radio s i) 0 (ofMachine (some c) (radio s i).server.log).length
  rw [Nat.zero_add,List.take_length,List.take_zero,← List.range_eq_range'] at all
  exact all

variable [DecidableEq ι]

def tune (s : Listening st ι) (i : ι) (r : Radio st) : Listening st ι := { s with
  client := Function.update s.client i r.client
  heard := Function.update s.heard i r.heard }

def audienceNext (st : Station φ) (se : ι → Session) (s : Listening st ι) : Event st ι → Option (Listening st ι)
  | .server e => (serverNext st s.server e).map fun server => { s with server }
  | .hear i k => (radioNext st (se i) (radio s i) (.hear k)).map (tune s i)
  | .client i e => (radioNext st (se i) (radio s i) (.client e)).map (tune s i)

def seenBy (i : ι) : Event st ι → Option (Broadcast.Event st)
  | .server e => some (.server e)
  | .hear j k => if j = i then some (.hear k) else none
  | .client j e => if j = i then some (.client e) else none

theorem tuneSame {s : Listening st ι} {i : ι} {r : Radio st} (server : r.server = s.server) :
    radio (tune s i r) i = r := by
  simp only [radio,tune,Function.update_self,← server]

theorem tuneOther (s : Listening st ι) {i j : ι} (other : j ≠ i) (r : Radio st) : radio (tune s i r) j = radio s j := by
  simp only [radio,tune,Function.update_of_ne other]

theorem hearServer {se : Session} {s t : Radio st} {k : Nat} (step : radioNext st se s (.hear k) = some t) :
    t.server = s.server := by
  cases radioSound step
  rfl

theorem clientServer {se : Session} {s t : Radio st} {e : ClientThreads.Event}
    (step : radioNext st se s (.client e) = some t) : t.server = s.server := by
  cases radioSound step
  rfl

theorem radioRun {se : ι → Session} {heap : ι → Bytes} {es : List (Event st ι)} {s : Listening st ι}
    (run : exec (audienceNext st se) (opening st heap) es = some s) (i : ι) :
    exec (radioNext st (se i)) (onAir st (heap i)) (es.filterMap (seenBy i)) = some (radio s i) := by
  refine execView (f := fun s : Listening st ι => radio s i) ?_ ?_ run
  · intro s e t d step seen
    cases e with
    | server e =>
      cases Option.some.inj seen
      obtain ⟨server,moved,rfl⟩ := Option.map_eq_some_iff.mp step
      simp only [radioNext,radio,moved,Option.map_some]
    | hear j k =>
      simp only [seenBy] at seen
      split at seen <;> try contradiction
      rename_i here
      subst here
      cases Option.some.inj seen
      obtain ⟨r,moved,rfl⟩ := Option.map_eq_some_iff.mp step
      rw [tuneSame (hearServer moved)]
      exact moved
    | client j e =>
      simp only [seenBy] at seen
      split at seen <;> try contradiction
      rename_i here
      subst here
      cases Option.some.inj seen
      obtain ⟨r,moved,rfl⟩ := Option.map_eq_some_iff.mp step
      rw [tuneSame (clientServer moved)]
      exact moved
  · intro s e t step hidden
    cases e with
    | server e => contradiction
    | hear j k =>
      obtain ⟨r,moved,rfl⟩ := Option.map_eq_some_iff.mp step
      have other : i ≠ j := by
        rintro rfl
        simp [seenBy] at hidden
      exact tuneOther s other r
    | client j e =>
      obtain ⟨r,moved,rfl⟩ := Option.map_eq_some_iff.mp step
      have other : i ≠ j := by
        rintro rfl
        simp [seenBy] at hidden
      exact tuneOther s other r

theorem serverRun {se : ι → Session} {heap : ι → Bytes} {es : List (Event st ι)} {s : Listening st ι}
    (run : exec (audienceNext st se) (opening st heap) es = some s) :
    ∃ steps, exec (serverNext st) (start st) steps = some s.server := by
  refine ⟨es.filterMap fun e => match e with | .server e => some e | _ => none,?_⟩
  refine execView (f := fun s : Listening st ι => s.server) ?_ ?_ run
  · intro s e t d step seen
    cases e with
    | server e =>
      cases Option.some.inj seen
      obtain ⟨server,moved,rfl⟩ := Option.map_eq_some_iff.mp step
      exact moved
    | _ => contradiction
  · intro s e t step hidden
    cases e with
    | server e => contradiction
    | _ =>
      obtain ⟨r,_,rfl⟩ := Option.map_eq_some_iff.mp step
      rfl

theorem increasingSublist {js : List Nat} {n : Nat} (increasing : Gaps.Increasing js) (below : ∀ j ∈ js, j < n) :
    js.Sublist (List.range n) := by
  have distinct : js.Nodup := increasing.imp Nat.ne_of_lt
  have among : js.Subperm (List.range n) :=
    List.subperm_of_subset distinct fun j member => List.mem_range.mpr (below j member)
  have sorted : (List.range n).Pairwise (· ≤ ·) := List.pairwise_lt_range.imp Nat.le_of_lt
  exact List.sublist_of_subperm_of_pairwise among (increasing.imp Nat.le_of_lt) sorted

theorem orderedGot {c : Fin st.owners.length} {se : ι → Session} {heap : ι → Bytes} {es : List (Event st ι)}
    {s : Listening st ι} (run : exec (audienceNext st se) (opening st heap) es = some s) {i : ι}
    (listens : Listens st (se i) c) (running : (s.client i).writer ≠ .left) (fifo : Gaps.Increasing (s.heard i)) :
    (got s i).Sublist (stream st c s) := by
  obtain ⟨js,heard,flow⟩ := heardFlow listens (radioRun run i) running
  have increasing : Gaps.Increasing js := (placesIncrease c s.server.log fifo).sublist heard
  have below : ∀ j ∈ js, j < (ofMachine (some c) s.server.log).length := by
    intro j member
    obtain ⟨d,there,_⟩ := placeSource (heard.subset member)
    exact (List.getElem?_eq_some_iff.mp there).1
  have played : got s i = (js.map (payloadAt st c (radio s i))).flatten := flow
  rw [played,streamNumbers c s i]
  exact ((increasingSublist increasing below).map _).flatten

theorem unbrokenGot {c : Fin st.owners.length} {se : ι → Session} {heap : ι → Bytes} {es : List (Event st ι)}
    {s : Listening st ι} (run : exec (audienceNext st se) (opening st heap) es = some s) {i : ι}
    (listens : Listens st (se i) c) (running : (s.client i).writer ≠ .left) (unbroken : Unbroken st c (radio s i)) :
    got s i <:+: stream st c s := by
  obtain ⟨a,n,flow⟩ := unbrokenRange listens (radioRun run i) running unbroken
  have upTo := payloadsRange st c (radio s i) a n
  obtain ⟨rest,split⟩ : ∃ rest, payloads (ofMachine (some c) s.server.log) =
      payloads ((ofMachine (some c) s.server.log).take (a+n)) ++ rest :=
    ⟨_,by rw [payloads,payloads,← List.map_append,List.take_append_drop]⟩
  refine ⟨(payloads ((ofMachine (some c) s.server.log).take a)).flatten,rest.flatten,?_⟩
  have played : got s i = ((List.range' a n).map (payloadAt st c (radio s i))).flatten := flow
  rw [played,stream,split,List.flatten_append]
  exact congrArg (· ++ rest.flatten) upTo.symm

/- All listeners of a channel hear one stream, the channel's programme as far as it has
been sent. Where the network keeps the order a player gets some of it in its order; where
the client's counters tell of no loss besides, one stretch of it without a gap. -/
theorem audienceAgrees (ready : ∀ k, Ready st.content st.behind (owner st k)) {se : ι → Session} {heap : ι → Bytes}
    {es : List (Event st ι)} {s : Listening st ι} (run : exec (audienceNext st se) (opening st heap) es = some s)
    (c : Fin st.owners.length) :
    (∃ laps, stream st c s <+: (List.replicate laps (blocks st.content (owner st c).mp3glob).flatten).flatten) ∧
    ∀ i, Listens st (se i) c → (s.client i).writer ≠ .left →
      (Gaps.Increasing (s.heard i) → (got s i).Sublist (stream st c s)) ∧
      (Unbroken st c (radio s i) → got s i <:+: stream st c s) := by
  constructor
  · obtain ⟨steps,served⟩ := serverRun run
    have wire := wirePrefix ready served c (ofMachine (some c) s.server.log).length
    rw [List.take_length] at wire
    exact wire
  · intro i listens running
    exact ⟨orderedGot run listens running,unbrokenGot run listens running⟩

def bothStart : List (Event sampleStation Bool) :=
  [.client true (.receiverStart true),.client true .receiverLoop,.client false (.receiverStart true),
    .client false .receiverLoop]

/- The listener of Broadcast, and one to whom the list is lost and whose player is faster. -/
def bothListen : List (Event sampleStation Bool) :=
  [.hear true 0,.client true .receiverLoop,.hear true 1,.hear false 1,.client false .ringWriteCopy,
    .client true .ringWriteCopy,.client false .account,.client true .account,.client false .writerPoll,
    .client false .writerLoop,.client false .ringReadCopy]

def sampleEvents : List (Event sampleStation Bool) := bothStart ++ (sampleSteps.map .server ++ bothListen)

def shown (s : Listening sampleStation Bool) : List (WriterPc × List Nat × Bytes × List Nat) :=
  [true,false].map fun i => Broadcast.shown (radio s i)

def sampleOpening : Listening sampleStation Bool := opening sampleStation fun _ => []

theorem bothShown : ∃ s, exec (audienceNext sampleStation fun _ => listener) sampleOpening sampleEvents = some s ∧
    shown s = [(.awaitReady,[0,1],[10,11,12],[1,0,0,0]),(.pipeTest,[1],[10,11,12],[1,0,0,0])] :=
  Option.map_eq_some_iff.mp (by decide +kernel)

theorem sampleAgrees : ∃ s, exec (audienceNext sampleStation fun _ => listener) sampleOpening sampleEvents = some s ∧
    ∀ i, got s i = [10,11,12] ∧ got s i <:+: stream sampleStation listened s := by
  obtain ⟨s,run,states⟩ := bothShown
  obtain ⟨_,each⟩ := audienceAgrees sampleReady run listened
  have one : ∀ i writer heard, Broadcast.shown (radio s i) = (writer,heard,[10,11,12],[1,0,0,0]) → writer ≠ .left →
      Gaps.Increasing heard → got s i = [10,11,12] ∧ got s i <:+: stream sampleStation listened s := by
    intro i writer heard state running fifo
    simp only [Broadcast.shown,Prod.mk.injEq,List.cons.injEq] at state
    obtain ⟨rfl,rfl,played,sent,whole,loss,silent,_⟩ := state
    have unbroken : Unbroken sampleStation listened (radio s i) :=
      ⟨fifo,Nat.le_trans (Nat.le_of_eq sent) (by decide),whole,loss.trans silent.symm⟩
    exact ⟨played,(each i sampleListens running).2 unbroken⟩
  obtain ⟨first,rest⟩ := List.cons.inj states
  obtain ⟨second,_⟩ := List.cons.inj rest
  refine ⟨s,run,fun i => ?_⟩
  cases i with
  | true => exact one true _ _ first (by decide) (by decide)
  | false => exact one false _ _ second (by decide) (by decide)

end IPv4Media.Audience
