import IPv4Media.ReceiverBooks
import IPv4Media.LossAccounting
import IPv4Media.Server

/-! The server, the network and one client. The network may lose what is on the wire,
repeat it and hand it over in any order, and anybody else may send to the client from an
address that is not the server's. What reaches the player is told in the server's terms. -/
namespace IPv4Media.Broadcast
open Octets Proto Socket Receiver ClientRing ClientThreads ClientTrace ClientStream ReceiverBooks Playlist ChannelSender
  ServerStream MediaLibrary ListCodec Formats LossAccounting Execution Interleaving Server

variable {φ : Type}

/- heard are the places on the wire of what recvfrom returned, in its order. -/
structure Radio (st : Station φ) where
  server : Wire st
  client : Client
  heard : List Nat

inductive Event (st : Station φ)
  | server (e : Sigma (Label st))
  | hear (k : Nat)
  | client (e : ClientThreads.Event)

def onAir (st : Station φ) (heap : Bytes) : Radio st := ⟨start st,initial heap,[]⟩

/- A datagram from the server's address comes from its socket. -/
def foreign (se : Session) : ClientThreads.Event → Bool
  | .recvfrom (.datagram d) => decide (d.source ≠ se.serverAddr)
  | _ => true

def radioNext (st : Station φ) (se : Session) (s : Radio st) : Event st → Option (Radio st)
  | .server e => (serverNext st s.server e).map fun server => { s with server }
  | .hear k => do
    let entry ← s.server.log[k]?
    if fits : entry.2.length ≤ msgChannelMax then do
      let client ← ClientThreads.next se s.client (.recvfrom (.datagram ⟨se.serverAddr,entry.2,fits⟩))
      some { s with client, heard := s.heard ++ [k] }
    else none
  | .client e => if foreign se e then (ClientThreads.next se s.client e).map fun client => { s with client } else none

inductive RadioStep (st : Station φ) (se : Session) (s : Radio st) : Event st → Radio st → Prop where
  | server (e : Sigma (Label st)) (server : Wire st) (step : serverNext st s.server e = some server) :
      RadioStep st se s (.server e) { s with server }
  | hear (k : Nat) (entry : Thread st × Bytes) (there : s.server.log[k]? = some entry)
      (fits : entry.2.length ≤ msgChannelMax) (client : Client)
      (step : ClientThreads.next se s.client (.recvfrom (.datagram ⟨se.serverAddr,entry.2,fits⟩)) = some client) :
      RadioStep st se s (.hear k) { s with client, heard := s.heard ++ [k] }
  | client (e : ClientThreads.Event) (outside : foreign se e = true) (client : Client)
      (step : ClientThreads.next se s.client e = some client) : RadioStep st se s (.client e) { s with client }

theorem radioSound {st : Station φ} {se : Session} {s t : Radio st} {e : Event st} (h : radioNext st se s e = some t) :
    RadioStep st se s e t := by
  cases e with
  | server e =>
    obtain ⟨server,step,last⟩ := Option.map_eq_some_iff.mp h
    subst last
    exact .server e server step
  | hear k =>
    obtain ⟨entry,there,h⟩ := Option.bind_eq_some_iff.mp h
    split at h <;> try contradiction
    rename_i fits
    obtain ⟨client,step,last⟩ := Option.bind_eq_some_iff.mp h
    cases Option.some.inj last
    exact .hear k entry there fits client step
  | client e =>
    simp only [radioNext] at h
    split at h <;> try contradiction
    rename_i outside
    obtain ⟨client,step,last⟩ := Option.map_eq_some_iff.mp h
    subst last
    exact .client e outside client step

def octetsAt {st : Station φ} (log : List (Thread st × Bytes)) (k : Nat) : Bytes := ((log[k]?).map Prod.snd).getD []

def serverOctets (se : Session) (d : Datagram) : Option Bytes := if d.source = se.serverAddr then some d.bytes else none

def fromServer (se : Session) (trace : List ClientThreads.Event) : List Bytes :=
  (arrivals trace).filterMap (serverOctets se)

theorem fromServerSnoc (se : Session) (trace : List ClientThreads.Event) (e : ClientThreads.Event) :
    fromServer se (trace ++ [e]) = fromServer se trace ++ (arrival e).toList.filterMap (serverOctets se) := by
  rw [fromServer,arrivalsSnoc,List.filterMap_append]
  rfl

theorem fromServerOutside {se : Session} {e : ClientThreads.Event} (outside : foreign se e = true) :
    (arrival e).toList.filterMap (serverOctets se) = [] := by
  cases e with
  | recvfrom r =>
    cases r with
    | error eintr => rfl
    | datagram d =>
      have other : d.source ≠ se.serverAddr := of_decide_eq_true outside
      simp [arrival,serverOctets,other]
  | _ => rfl

structure Tuned (st : Station φ) (se : Session) (heap : Bytes) (s : Radio st) : Prop where
  server : ∃ es, exec (serverNext st) (start st) es = some s.server
  client : ∃ trace, exec (ClientThreads.next se) (initial heap) trace = some s.client ∧
    fromServer se trace = s.heard.map (octetsAt s.server.log)
  inside : ∀ k ∈ s.heard, k < s.server.log.length

theorem octetsGrown {st : Station φ} {log whole : List (Thread st × Bytes)} (grown : log <+: whole) {ks : List Nat}
    (inside : ∀ k ∈ ks, k < log.length) : ks.map (octetsAt whole) = ks.map (octetsAt log) := by
  apply List.map_congr_left
  intro k member
  obtain ⟨more,rfl⟩ := grown
  rw [octetsAt,octetsAt,List.getElem?_append_left (inside k member)]

theorem tunedStep {st : Station φ} {se : Session} {heap : Bytes} {s t : Radio st} {e : Event st}
    (tuned : Tuned st se heap s) (step : RadioStep st se s e t) : Tuned st se heap t := by
  obtain ⟨⟨es,served⟩,⟨trace,run,heard⟩,inside⟩ := tuned
  cases step with
  | server e server step =>
    have moved : exec (serverNext st) s.server [e] = some server := by rw [execCons,step]; rfl
    have grown := logGrows moved
    refine ⟨⟨es ++ [e],execSnoc.mpr ⟨_,served,step⟩⟩,⟨trace,run,?_⟩,?_⟩
    · rw [octetsGrown grown inside]
      exact heard
    · intro k member
      exact Nat.lt_of_lt_of_le (inside k member) grown.length_le
  | hear k entry there fits client step =>
    obtain ⟨below,_⟩ := List.getElem?_eq_some_iff.mp there
    refine ⟨⟨es,served⟩,⟨trace ++ [_],execSnoc.mpr ⟨_,run,step⟩,?_⟩,?_⟩
    · rw [fromServerSnoc,heard,List.map_append]
      simp [arrival,serverOctets,octetsAt,there]
    · intro j member
      rcases List.mem_append.mp member with old | new
      · exact inside j old
      · rw [List.mem_singleton.mp new]
        exact below
  | client e outside client step =>
    refine ⟨⟨es,served⟩,⟨trace ++ [e],execSnoc.mpr ⟨_,run,step⟩,?_⟩,inside⟩
    rw [fromServerSnoc,fromServerOutside outside,List.append_nil]
    exact heard

theorem tunedRun {st : Station φ} {se : Session} {heap : Bytes} {s : Radio st} {es : List (Event st)}
    (run : exec (radioNext st se) (onAir st heap) es = some s) : Tuned st se heap s :=
  invariant ⟨⟨[],rfl⟩,⟨[],rfl,rfl⟩,by simp [onAir]⟩ (fun _ _ _ tuned step => tunedStep tuned (radioSound step)) run

/- The checks of receiver_thread that look at the octets alone. -/
def passes (se : Session) (bytes : Bytes) : Bool :=
  decide (sizeofMsgChannel ≤ bytes.length ∧ ((readChnid bytes).toNat : Int) = se.chosenChannel)

theorem offersPass (se : Session) (trace : List ClientThreads.Event) :
    (offers se trace).map Datagram.bytes = (fromServer se trace).filter (passes se) := by
  rw [offers,fromServer]
  induction arrivals trace with
  | nil => rfl
  | cons d ds ih =>
    by_cases source : d.source = se.serverAddr
    · have same : chosen se d = passes se d.bytes := by simp [chosen,passes,source]
      simp only [List.filter_cons,List.filterMap_cons,serverOctets,source,if_true,same]
      split <;> simp [ih]
    · have other : chosen se d = false := by simp [chosen,source]
      simp only [List.filter_cons,List.filterMap_cons,serverOctets,source,if_false,other,Bool.false_eq_true]
      exact ih

def placeAt {st : Station φ} (c : Fin st.owners.length) (log : List (Thread st × Bytes)) (k : Nat) : Option Nat :=
  match log[k]? with
  | none => none
  | some entry => if entry.1 = some c ∧ channelDataOffset < entry.2.length then some (rank (some c) log k) else none

def places {st : Station φ} (c : Fin st.owners.length) (s : Radio st) : List Nat :=
  s.heard.filterMap (placeAt c s.server.log)

theorem placeAtSome {st : Station φ} {c : Fin st.owners.length} {log : List (Thread st × Bytes)} {k j : Nat}
    (placed : placeAt c log k = some j) :
    ∃ d, log[k]? = some (some c,d) ∧ channelDataOffset < d.length ∧ rank (some c) log k = j := by
  unfold placeAt at placed
  split at placed <;> try contradiction
  split at placed <;> try contradiction
  rename_i entry there mine
  obtain ⟨i,d⟩ := entry
  obtain ⟨rfl,long⟩ := mine
  exact ⟨d,there,long,Option.some.inj placed⟩

theorem placeSource {st : Station φ} {c : Fin st.owners.length} {s : Radio st} {j : Nat} (member : j ∈ places c s) :
    ∃ d, (ofMachine (some c) s.server.log)[j]? = some d ∧ channelDataOffset < d.length := by
  obtain ⟨k,_,placed⟩ := List.mem_filterMap.mp member
  obtain ⟨d,there,long,rfl⟩ := placeAtSome placed
  exact ⟨d,rankEntry there,long⟩

/- The programme list does not look like a datagram of the channel listened to. -/
def ListApart (st : Station φ) (se : Session) : Prop :=
  ∀ e rest, st.entries = e :: rest → ((e.desc.headD 0).toNat : Int) ≠ se.chosenChannel

/- The session of a listener to channel c whose number no other channel has. -/
structure Listens (st : Station φ) (se : Session) (c : Fin st.owners.length) : Prop where
  order : se.order = st.order
  chosen : se.chosenChannel = ((owner st c).chnid.toNat : Int)
  alone : ∀ k, (owner st k).chnid = (owner st c).chnid → k = c
  list : ListApart st se

variable {st : Station φ} {se : Session} {c : Fin st.owners.length}

theorem listPasses (apart : ListApart st se) : passes se (encodeList st.entries) = false := by
  apply decide_eq_false
  rintro ⟨long,channel⟩
  cases listed : st.entries with
  | nil =>
    rw [listed] at long
    exact absurd long (by decide)
  | cons e rest =>
    rw [listed,listChnid] at channel
    exact apart e rest listed channel

theorem channelPasses (listens : Listens st se c) {es : List (Sigma (Label st))} {s : Wire st}
    (served : exec (serverNext st) (start st) es = some s) {k : Fin st.owners.length} {i : Nat} {d : Bytes}
    (there : (ofMachine (some k) s.log)[i]? = some d) :
    readSeq st.order d = UInt32.ofNat i ∧ passes se d = decide (k = c ∧ channelDataOffset < d.length) := by
  obtain ⟨data,rfl,_⟩ := wireNumbered served there
  obtain ⟨seq,id,_⟩ := readMsgChannel st.order (UInt32.ofNat i) (owner st k).chnid data
  refine ⟨seq,?_⟩
  rw [passes,id,listens.chosen]
  apply decide_eq_decide.mpr
  constructor
  · rintro ⟨long,channel⟩
    exact ⟨listens.alone k (UInt8.toNat_inj.mp (by exact_mod_cast channel)),long⟩
  · rintro ⟨rfl,long⟩
    exact ⟨long,rfl⟩

theorem wirePasses (listens : Listens st se c) {es : List (Sigma (Label st))} {s : Wire st}
    (served : exec (serverNext st) (start st) es = some s) {ks : List Nat} (inside : ∀ k ∈ ks, k < s.log.length) :
    (ks.map (octetsAt s.log)).filter (passes se) =
      (ks.filterMap (placeAt c s.log)).map fun j => (ofMachine (some c) s.log).getD j [] := by
  induction ks with
  | nil => rfl
  | cons k ks ih =>
    have tail := ih fun j member => inside j (List.mem_cons_of_mem k member)
    have below := inside k List.mem_cons_self
    obtain ⟨⟨i,d⟩,entry⟩ : ∃ entry, s.log[k]? = some entry := ⟨_,List.getElem?_eq_getElem below⟩
    have ranked := rankEntry entry
    have shown : octetsAt s.log k = d := by rw [octetsAt,entry]; rfl
    rw [List.map_cons,List.filter_cons,List.filterMap_cons,shown,tail]
    cases i with
    | none =>
      have list := listSent served d (List.mem_of_getElem? ranked)
      rw [listOctetsEncoded] at list
      rw [list,listPasses listens.list]
      simp [placeAt,entry]
    | some i =>
      obtain ⟨_,passed⟩ := channelPasses listens served ranked
      rw [passed]
      by_cases here : i = c ∧ channelDataOffset < d.length
      · obtain ⟨rfl,long⟩ := here
        simp [placeAt,entry,long,List.getD,ranked]
      · have other : ¬ (some i = some c ∧ channelDataOffset < d.length) := by
          simpa only [Option.some.injEq] using here
        simp only [placeAt,entry,other,here,if_false,decide_false,Bool.false_eq_true]

theorem strangerPasses (apart : ListApart st se) (strange : ∀ k, ((owner st k).chnid.toNat : Int) ≠ se.chosenChannel)
    {es : List (Sigma (Label st))} {s : Wire st} (served : exec (serverNext st) (start st) es = some s) {ks : List Nat}
    (inside : ∀ k ∈ ks, k < s.log.length) : (ks.map (octetsAt s.log)).filter (passes se) = [] := by
  refine List.filter_eq_nil_iff.mpr fun bytes member => ?_
  obtain ⟨k,heard,rfl⟩ := List.mem_map.mp member
  obtain ⟨⟨i,d⟩,entry⟩ : ∃ entry, s.log[k]? = some entry := ⟨_,List.getElem?_eq_getElem (inside k heard)⟩
  have ranked := rankEntry entry
  have shown : octetsAt s.log k = d := by rw [octetsAt,entry]; rfl
  rw [shown]
  cases i with
  | none =>
    have list := listSent served d (List.mem_of_getElem? ranked)
    rw [listOctetsEncoded] at list
    rw [list,listPasses apart]
    decide
  | some i =>
    obtain ⟨data,rfl,_⟩ := wireNumbered served ranked
    obtain ⟨_,id,_⟩ := readMsgChannel st.order (UInt32.ofNat (rank (some i) s.log k)) (owner st i).chnid data
    intro passed
    have channel := (of_decide_eq_true passed).2
    rw [id] at channel
    exact strange i channel

theorem placesIncrease (c : Fin st.owners.length) (log : List (Thread st × Bytes)) {ks : List Nat}
    (fifo : Gaps.Increasing ks) : Gaps.Increasing (ks.filterMap (placeAt c log)) := by
  refine List.Pairwise.filterMap (placeAt c log) ?_ fifo
  intro k l below i first j second
  obtain ⟨d,there,_,rfl⟩ := placeAtSome first
  obtain ⟨_,_,_,rfl⟩ := placeAtSome second
  exact rankIncreases there below

def zeros {α : Type} (as : List α) (rets : List Int) : List α :=
  (as.zip rets).filterMap fun pair => if pair.2 = 0 then some pair.1 else none

theorem zerosSublist {α : Type} (as : List α) (rets : List Int) : (zeros as rets).Sublist as := by
  induction as generalizing rets with
  | nil => exact List.Sublist.slnil
  | cons a as ih =>
    cases rets with
    | nil => exact List.nil_sublist _
    | cons ret rets =>
      by_cases zero : ret = 0
      · simpa [zeros,zero] using ih rets
      · simpa [zeros,zero] using (ih rets).trans (List.sublist_cons_self a as)

theorem zerosAll {α : Type} (as : List α) {rets : List Int} (all : ∀ ret ∈ rets, ret = 0) :
    zeros as rets = as.take rets.length := by
  induction as generalizing rets with
  | nil => simp [zeros]
  | cons a as ih =>
    cases rets with
    | nil => rfl
    | cons ret rets =>
      have tail := ih fun other member => all other (List.mem_cons_of_mem ret member)
      rw [all ret List.mem_cons_self,List.length_cons,List.take_succ_cons,← tail]
      rfl

theorem zerosMap {α β : Type} (f : α → β) (as : List α) (rets : List Int) :
    zeros (as.map f) rets = (zeros as rets).map f := by
  induction as generalizing rets with
  | nil => rfl
  | cons a as ih =>
    cases rets with
    | nil => rfl
    | cons ret rets =>
      have tail := ih rets
      unfold zeros at tail ⊢
      by_cases zero : ret = 0 <;> simp [zero,tail]

theorem acceptedZeros (se : Session) (trace : List ClientThreads.Event) :
    accepted se trace = zeros ((offers se trace).map payload) (returns trace) := by
  rw [accepted,zeros,List.zip_map_left,List.filterMap_map]
  apply List.filterMap_congr
  rintro ⟨d,ret⟩ _
  rfl

def payloadAt (st : Station φ) (c : Fin st.owners.length) (s : Radio st) (j : Nat) : Bytes :=
  ((ofMachine (some c) s.server.log).getD j []).drop channelDataOffset

theorem offersPlaces (listens : Listens st se c) {heap : Bytes} {s : Radio st} (tuned : Tuned st se heap s) :
    ∃ trace, exec (ClientThreads.next se) (initial heap) trace = some s.client ∧
      (offers se trace).map payload = (places c s).map (payloadAt st c s) ∧
      (offers se trace).map (seqOf se) = (places c s).map UInt32.ofNat := by
  obtain ⟨⟨es,served⟩,⟨trace,run,heard⟩,inside⟩ := tuned
  have passed := offersPass se trace
  rw [heard,wirePasses listens served inside] at passed
  refine ⟨trace,run,?_,?_⟩
  · have dropped := congrArg (List.map fun bytes : Bytes => bytes.drop channelDataOffset) passed
    rw [List.map_map,List.map_map] at dropped
    exact dropped
  · have read := congrArg (List.map fun bytes : Bytes => readSeq se.order bytes) passed
    simp only [List.map_map] at read
    refine read.trans (List.map_congr_left fun j member => ?_)
    obtain ⟨d,ranked,_⟩ := placeSource member
    simp only [Function.comp,List.getD,ranked,Option.getD_some,listens.order]
    exact (channelPasses listens served ranked).1

theorem payloadStretch (ready : ∀ k, Ready st.content st.behind (owner st k)) {es : List (Sigma (Label st))} {s : Radio st}
    (served : exec (serverNext st) (start st) es = some s.server) (j : Nat) :
    ∃ laps, (payloads ((ofMachine (some c) s.server.log).take j)).flatten ++ payloadAt st c s j <+:
      (List.replicate laps (blocks st.content (owner st c).mp3glob).flatten).flatten := by
  have wire := wirePrefix ready served c (j+1)
  have next : (payloads ((ofMachine (some c) s.server.log).take (j+1))).flatten =
      (payloads ((ofMachine (some c) s.server.log).take j)).flatten ++ payloadAt st c s j := by
    rw [List.take_add_one,payloads,payloads,List.map_append,List.flatten_append,payloadAt,List.getD]
    cases (ofMachine (some c) s.server.log)[j]? <;> simp
  rwa [next] at wire

theorem heardFlow (listens : Listens st se c) {heap : Bytes} {es : List (Event st)} {s : Radio st}
    (run : exec (radioNext st se) (onAir st heap) es = some s) (running : s.client.writer ≠ .left) :
    ∃ js : List Nat, js.Sublist (places c s) ∧
      s.client.pipe ++ unwritten s.client ++ queue s.client.rb = (js.map (payloadAt st c s)).flatten := by
  obtain ⟨trace,heard,offered,_⟩ := offersPlaces listens (tunedRun run)
  have flow := (streamRun heard).flow running
  rw [acceptedZeros,offered,zerosMap] at flow
  exact ⟨_,zerosSublist _ _,flow⟩

/- Whatever the network does, the player gets stretches of the programme of the channel
listened to, one for each datagram that was heard and found room, and of no other. -/
theorem broadcastIntegrity (ready : ∀ k, Ready st.content st.behind (owner st k)) (listens : Listens st se c)
    {heap : Bytes} {es : List (Event st)} {s : Radio st} (run : exec (radioNext st se) (onAir st heap) es = some s)
    (running : s.client.writer ≠ .left) :
    ∃ js : List Nat, js.Sublist (places c s) ∧
      s.client.pipe ++ unwritten s.client ++ queue s.client.rb = (js.map (payloadAt st c s)).flatten ∧
      ∀ j, ∃ laps, (payloads ((ofMachine (some c) s.server.log).take j)).flatten ++ payloadAt st c s j <+:
        (List.replicate laps (blocks st.content (owner st c).mp3glob).flatten).flatten := by
  obtain ⟨es,served⟩ := (tunedRun run).server
  obtain ⟨js,heard,flow⟩ := heardFlow listens run running
  exact ⟨js,heard,flow,payloadStretch ready served⟩

/- The numbers between those heard that belong to datagrams without payload: one for each
end of a file on the way. -/
def silences (st : Station φ) (c : Fin st.owners.length) (s : Radio st) : Nat :=
  ((Gaps.inner (places c s)).filter fun j => payloadAt st c s j = []).card

theorem placeFilled {s : Radio st} {j : Nat} (member : j ∈ places c s) : payloadAt st c s j ≠ [] := by
  obtain ⟨d,ranked,long⟩ := placeSource member
  rw [payloadAt,List.getD,ranked,Option.getD_some]
  apply List.ne_nil_of_length_pos
  rw [List.length_drop]
  omega

theorem gapsSilent {s : Radio st} (counted : Gaps.missing (places c s) = silences st c s) :
    ∀ j ∈ Gaps.inner (places c s), j ∉ places c s → payloadAt st c s j = [] := by
  have sub : (Gaps.inner (places c s)).filter (fun j => payloadAt st c s j = []) ⊆
      (Gaps.inner (places c s)).filter fun j => j ∉ places c s := by
    intro j member
    obtain ⟨inside,silent⟩ := Finset.mem_filter.mp member
    exact Finset.mem_filter.mpr ⟨inside,fun heard => placeFilled heard silent⟩
  have same := Finset.eq_of_subset_of_card_le sub (Nat.le_of_eq counted)
  intro j inside absent
  have member : j ∈ (Gaps.inner (places c s)).filter fun j => j ∉ places c s :=
    Finset.mem_filter.mpr ⟨inside,absent⟩
  rw [← same] at member
  exact (Finset.mem_filter.mp member).2

theorem payloadsRange (st : Station φ) (c : Fin st.owners.length) (s : Radio st) (a n : Nat) :
    (payloads ((ofMachine (some c) s.server.log).take (a+n))).flatten =
      (payloads ((ofMachine (some c) s.server.log).take a)).flatten ++
        ((List.range' a n).map (payloadAt st c s)).flatten := by
  induction n with
  | zero => simp
  | succ n ih =>
    rw [List.range'_concat,List.map_append,List.flatten_append,← List.append_assoc,← ih,← Nat.add_assoc,List.take_add_one,
      payloads,payloads,List.map_append,List.flatten_append,Nat.one_mul]
    congr 1
    rw [List.map_singleton,List.flatten_singleton,payloadAt,List.getD]
    cases (ofMachine (some c) s.server.log)[a+n]? <;> simp

theorem nothingDropped {heap : Bytes} {trace : List ClientThreads.Event} {s : Client}
    (run : exec (ClientThreads.next se) (initial heap) trace = some s)
    (none_ : s.packetsDropped + undropped s.receiver = 0) : ∀ ret ∈ returns trace, ret = 0 := by
  have dropped := droppedRun run
  rw [Dropped,none_,failures] at dropped
  intro ret member
  have zero := List.countP_eq_zero.mp dropped.symm ret member
  simpa using zero

theorem lossGaps {s : Radio st} {heap : Bytes} {trace : List ClientThreads.Event} (fifo : Gaps.Increasing (places c s))
    (run : exec (ClientThreads.next se) (initial heap) trace = some s.client)
    (numbers : (offers se trace).map (seqOf se) = (places c s).map UInt32.ofNat)
    (unwrapped : (ofMachine (some c) s.server.log).length ≤ 2^32) :
    s.client.tracker.packetLossCount.toUInt32.toNat = Gaps.missing (places c s) := by
  have below : ∀ j ∈ places c s, j < (ofMachine (some c) s.server.log).length := by
    intro j member
    obtain ⟨d,ranked,_⟩ := placeSource member
    exact (List.getElem?_eq_some_iff.mp ranked).1
  have small : Gaps.missing (places c s) < 2^32 := by
    cases heard : places c s with
    | nil => decide
    | cons a l =>
      rw [heard] at fifo below
      have count := Gaps.missingCount fifo
      have last := below _ (List.getLast_mem (List.cons_ne_nil a l))
      omega
  rw [(bookedRun run).tracker,numbers,trackGaps fifo,UInt32.toNat_ofNat']
  exact Nat.mod_eq_of_lt small

/- The network keeps the order, and the client's own counters tell that nothing is missing:
no write to the ring failed, and packet_loss_count is no more than the ends of files on
the way. -/
structure Unbroken (st : Station φ) (c : Fin st.owners.length) (s : Radio st) : Prop where
  fifo : Gaps.Increasing s.heard
  unwrapped : (ofMachine (some c) s.server.log).length ≤ 2^32
  undropped : s.client.packetsDropped + undropped s.client.receiver = 0
  unlost : s.client.tracker.packetLossCount.toUInt32.toNat = silences st c s

theorem unbrokenRange (listens : Listens st se c) {heap : Bytes} {es : List (Event st)} {s : Radio st}
    (run : exec (radioNext st se) (onAir st heap) es = some s) (running : s.client.writer ≠ .left)
    (unbroken : Unbroken st c s) : ∃ a n, s.client.pipe ++ unwritten s.client ++ queue s.client.rb =
      ((List.range' a n).map (payloadAt st c s)).flatten := by
  obtain ⟨trace,heard,offered,numbers⟩ := offersPlaces listens (tunedRun run)
  have flow := (streamRun heard).flow running
  rw [acceptedZeros,offered,zerosMap,zerosAll _ (nothingDropped heard unbroken.undropped)] at flow
  have increasing : Gaps.Increasing (places c s) := placesIncrease c s.server.log unbroken.fifo
  have silent := gapsSilent ((lossGaps increasing heard numbers unbroken.unwrapped).symm.trans unbroken.unlost)
  have split := (List.take_append_drop (returns trace).length (places c s)).symm
  rw [flow]
  cases taken : (places c s).take (returns trace).length with
  | nil => exact ⟨0,0,rfl⟩
  | cons a l =>
    rw [taken] at split
    generalize (places c s).drop (returns trace).length = rest at split
    rw [split] at increasing silent
    obtain ⟨n,shown⟩ := Gaps.flattenGaps (increasing.sublist (List.sublist_append_left _ _)) fun j inside absent =>
      silent j (Gaps.innerSublist (List.sublist_append_left _ _) increasing inside) fun member =>
        absent (Gaps.innerFront increasing inside member)
    exact ⟨a,n,shown⟩

theorem broadcastGapFree (ready : ∀ k, Ready st.content st.behind (owner st k)) (listens : Listens st se c)
    {heap : Bytes} {es : List (Event st)} {s : Radio st} (run : exec (radioNext st se) (onAir st heap) es = some s)
    (running : s.client.writer ≠ .left) (fifo : Gaps.Increasing s.heard)
    (unwrapped : (ofMachine (some c) s.server.log).length ≤ 2^32)
    (undropped_ : s.client.packetsDropped + undropped s.client.receiver = 0)
    (unlost : s.client.tracker.packetLossCount.toUInt32.toNat = silences st c s) :
    ∃ before laps, before ++ (s.client.pipe ++ unwritten s.client ++ queue s.client.rb) <+:
      (List.replicate laps (blocks st.content (owner st c).mp3glob).flatten).flatten := by
  obtain ⟨es,served⟩ := (tunedRun run).server
  obtain ⟨a,n,got⟩ := unbrokenRange listens run running ⟨fifo,unwrapped,undropped_,unlost⟩
  obtain ⟨laps,wire⟩ := wirePrefix ready served c (a+n)
  rw [payloadsRange,← got] at wire
  exact ⟨_,laps,wire⟩

def listener : Session := ⟨.little,5,⟨1,1989⟩⟩
def listened : Fin sampleStation.owners.length := ⟨0,Nat.zero_lt_one⟩

theorem sampleListens : Listens sampleStation listener listened := by
  refine ⟨rfl,rfl,?_,?_⟩
  · rintro ⟨k,below⟩ _
    exact Fin.ext (Nat.lt_one_iff.mp below)
  · intro e rest listed
    obtain ⟨rfl,_⟩ := List.cons.inj listed
    decide

def sampleEvening : List (Event sampleStation) :=
  [.client (.receiverStart true),.client .receiverLoop] ++ sampleSteps.map .server ++
    [.hear 0,.client .receiverLoop,.hear 1,.client .ringWriteCopy,.client .account]

def shown (s : Radio sampleStation) : WriterPc × List Nat × Bytes × List Nat :=
  (s.client.writer,s.heard,s.client.pipe ++ unwritten s.client ++ queue s.client.rb,
    [(ofMachine sampleThread s.server.log).length,s.client.packetsDropped + undropped s.client.receiver,
      s.client.tracker.packetLossCount.toUInt32.toNat,silences sampleStation listened s])

theorem eveningShown : ∃ s, exec (radioNext sampleStation listener) (onAir sampleStation []) sampleEvening = some s ∧
    shown s = (.awaitReady,[0,1],[10,11,12],[1,0,0,0]) :=
  Option.map_eq_some_iff.mp (by decide +kernel)

theorem sampleIntegrity : ∃ s, exec (radioNext sampleStation listener) (onAir sampleStation []) sampleEvening = some s ∧
    ∃ js : List Nat, js.Sublist (places listened s) ∧
      [10,11,12] = (js.map (payloadAt sampleStation listened s)).flatten := by
  obtain ⟨s,run,state⟩ := eveningShown
  simp only [shown,Prod.mk.injEq] at state
  obtain ⟨writer,_,played,_⟩ := state
  obtain ⟨js,sub,flow,_⟩ := broadcastIntegrity sampleReady sampleListens run (by rw [writer]; decide)
  exact ⟨s,run,js,sub,played.symm.trans flow⟩

theorem sampleGapFree : ∃ s, exec (radioNext sampleStation listener) (onAir sampleStation []) sampleEvening = some s ∧
    ∃ before laps, before ++ [10,11,12] <+:
      (List.replicate laps (blocks sampleContent sampleChannel.mp3glob).flatten).flatten := by
  obtain ⟨s,run,state⟩ := eveningShown
  simp only [shown,Prod.mk.injEq,List.cons.injEq] at state
  obtain ⟨writer,heard,played,sent,undropped_,loss,silent,_⟩ := state
  have stretch := broadcastGapFree sampleReady sampleListens run (by rw [writer]; decide) (by rw [heard]; decide)
    (Nat.le_trans (Nat.le_of_eq sent) (by decide)) undropped_ (loss.trans silent.symm)
  rw [played] at stretch
  exact ⟨s,run,stretch⟩

end IPv4Media.Broadcast
