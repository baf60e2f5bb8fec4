import IPv4Media.ClientThreads

/-! What an execution of the client shows from outside: the datagrams that arrived,
those of them the receiver offers to the ring, and what ring_buffer_write returned.
The receiver offers one datagram at a time, so offers and return values are paired
in order; the state holds the one offer that is still without a return value. -/
namespace IPv4Media.ClientTrace
open Octets Proto Socket Receiver ClientRing ClientThreads Execution

def arrival : Event → Option Datagram
  | .recvfrom (.datagram d) => some d
  | _ => none

def returned : Event → Option Int
  | .ringWriteCopy => some 0
  | .ringWriteTimeout => some (-1)
  | _ => none

def arrivals (trace : List Event) : List Datagram := trace.filterMap arrival
def returns (trace : List Event) : List Int := trace.filterMap returned
def offers (se : Session) (trace : List Event) : List Datagram := (arrivals trace).filter (chosen se)

def kept (pair : Datagram × Int) : Option Bytes := if pair.2 = 0 then some (payload pair.1) else none

def accepted (se : Session) (trace : List Event) : List Bytes :=
  ((offers se trace).zip (returns trace)).filterMap kept

def pendingLen : ReceiverPc → Option Nat
  | .ringTest len => some len
  | .ringWait len => some len
  | .ringExpired len => some len
  | _ => none

inductive Matched (se : Session) (trace : List Event) (s : Client) : Prop where
  | idle (none : pendingLen s.receiver = none)
      (paired : (offers se trace).length = (returns trace).length)
  | busy (d : Datagram) (before : List Datagram)
      (pending : pendingLen s.receiver = some d.bytes.length)
      (offered : offers se trace = before ++ [d]) (passed : chosen se d = true)
      (paired : before.length = (returns trace).length)
      (data : readData s.msgChannel (dataLen d.bytes.length) = payload d)

structure Booked (se : Session) (trace : List Event) (s : Client) : Prop where
  matched : Matched se trace s
  count : s.packetsReceived = (offers se trace).length
  tracker : s.tracker = ((offers se trace).map (seqOf se)).foldl track SeqTracker.initial

theorem arrivalsSnoc (trace : List Event) (e : Event) :
    arrivals (trace ++ [e]) = arrivals trace ++ (arrival e).toList := by
  cases h : arrival e <;> simp [arrivals,h]

theorem returnsSnoc (trace : List Event) (e : Event) :
    returns (trace ++ [e]) = returns trace ++ (returned e).toList := by
  cases h : returned e <;> simp [returns,h]

theorem offersSnoc (se : Session) (trace : List Event) (e : Event) :
    offers se (trace ++ [e]) = offers se trace ++ (arrival e).toList.filter (chosen se) := by
  rw [offers,arrivalsSnoc,List.filter_append]
  rfl

theorem offersOther {se trace e} (silent : ∀ d, arrival e = some d → chosen se d = false) :
    offers se (trace ++ [e]) = offers se trace := by
  rw [offersSnoc]
  cases h : arrival e with
  | none => simp
  | some d => simp [silent d h]

theorem offersChosen {se trace d} (passed : chosen se d = true) :
    offers se (trace ++ [.recvfrom (.datagram d)]) = offers se trace ++ [d] := by
  rw [offersSnoc]
  simp [arrival,passed]

theorem returnsOther {trace e} (silent : returned e = none) : returns (trace ++ [e]) = returns trace := by
  rw [returnsSnoc,silent]
  exact List.append_nil _

theorem acceptedOther {se trace e} (noOffer : ∀ d, arrival e = some d → chosen se d = false)
    (noReturn : returned e = none) : accepted se (trace ++ [e]) = accepted se trace := by
  rw [accepted,offersOther noOffer,returnsOther noReturn]
  rfl

-- An offer without a return value yet leaves the pairs as they are.
theorem zipShort {α β : Type} {xs ys : List α} {zs : List β} (full : xs.length = zs.length) :
    (xs ++ ys).zip zs = xs.zip zs := by
  have h : (xs ++ ys).zip (zs ++ []) = xs.zip zs ++ ys.zip [] := List.zip_append full
  simpa using h

theorem acceptedOffer {se trace d} (paired : (offers se trace).length = (returns trace).length)
    (passed : chosen se d = true) :
    accepted se (trace ++ [.recvfrom (.datagram d)]) = accepted se trace := by
  rw [accepted,offersChosen passed,returnsOther rfl,zipShort paired]
  rfl

theorem acceptedReturn {se trace e ret d} {before : List Datagram}
    (offered : offers se trace = before ++ [d]) (paired : before.length = (returns trace).length)
    (noOffer : arrival e = none) (ends : returned e = some ret) :
    accepted se (trace ++ [e]) = accepted se trace ++ (kept (d,ret)).toList := by
  have same : offers se (trace ++ [e]) = before ++ [d] := by
    rw [offersOther (by simp [noOffer]),offered]
  have now : returns (trace ++ [e]) = returns trace ++ [ret] := by
    rw [returnsSnoc,ends]
    rfl
  rw [accepted,same,now,List.zip_append paired,accepted,offered,zipShort paired,List.filterMap_append]
  cases h : kept (d,ret) <;> simp [h]

theorem bookedInitial (se : Session) (heap : Bytes) : Booked se [] (initial heap) :=
  ⟨.idle rfl rfl,rfl,rfl⟩

theorem bookedFrame {se trace s e t} (booked : Booked se trace s)
    (noOffer : ∀ d, arrival e = some d → chosen se d = false) (noReturn : returned e = none)
    (pending : pendingLen t.receiver = pendingLen s.receiver)
    (data : pendingLen s.receiver = none ∨ t.msgChannel = s.msgChannel)
    (count : t.packetsReceived = s.packetsReceived) (tracker : t.tracker = s.tracker) :
    Booked se (trace ++ [e]) t := by
  have sameOffers : offers se (trace ++ [e]) = offers se trace := offersOther noOffer
  have sameReturns : returns (trace ++ [e]) = returns trace := returnsOther noReturn
  refine ⟨?_,by rw [count,sameOffers,booked.count],by rw [tracker,sameOffers,booked.tracker]⟩
  cases booked.matched with
  | idle none paired => exact .idle (pending.trans none) (by rw [sameOffers,sameReturns,paired])
  | busy d before busy offered passed paired read =>
    rcases data with idle | same
    · rw [idle] at busy
      contradiction
    · exact .busy d before (pending.trans busy) (sameOffers.trans offered) passed
        (by rw [sameReturns,paired]) (by rw [same,read])

theorem bookedReturn {se trace s e t ret len} (booked : Booked se trace s)
    (busy : pendingLen s.receiver = some len) (noOffer : arrival e = none)
    (ends : returned e = some ret) (done : pendingLen t.receiver = none)
    (count : t.packetsReceived = s.packetsReceived) (tracker : t.tracker = s.tracker) :
    Booked se (trace ++ [e]) t := by
  have sameOffers : offers se (trace ++ [e]) = offers se trace := offersOther (by simp [noOffer])
  refine ⟨?_,by rw [count,sameOffers,booked.count],by rw [tracker,sameOffers,booked.tracker]⟩
  cases booked.matched with
  | idle none _ =>
    rw [none] at busy
    contradiction
  | busy d before _ offered _ paired _ =>
    apply Matched.idle done
    rw [sameOffers,offered,returnsSnoc,ends]
    simp [paired]

theorem signalNotFullPending (pc : ReceiverPc) : pendingLen (signalNotFull pc) = pendingLen pc := by
  cases pc <;> rfl

theorem bookedReceiver {se trace s e t} (booked : Booked se trace s) (step : ReceiverStep se s e t) :
    Booked se (trace ++ [e]) t := by
  have frame := @bookedFrame se trace s e t booked
  cases step with
  | start pc => exact frame (by simp [arrival]) rfl (by rw [pc]; rfl) (.inr rfl) rfl rfl
  | startFailed pc => exact frame (by simp [arrival]) rfl (by rw [pc]; rfl) (.inr rfl) rfl rfl
  | loop pc =>
    refine frame (by simp [arrival]) rfl ?_ (.inr rfl) rfl rfl
    cases s.stopFlag <;> rw [pc] <;> rfl
  | recvError eintr pc =>
    refine frame (by simp [arrival]) rfl ?_ (.inr rfl) rfl rfl
    cases eintr <;> rw [pc] <;> rfl
  | recvChosen d pc passed =>
    have none : pendingLen s.receiver = none := by rw [pc]; rfl
    have grown : offers se (trace ++ [.recvfrom (.datagram d)]) = offers se trace ++ [d] :=
      offersChosen passed
    cases booked.matched with
    | busy d before busy _ _ _ _ =>
      rw [none] at busy
      contradiction
    | idle _ paired =>
      refine ⟨.busy d (offers se trace) rfl grown passed ?_ (readDataDelivered _ passed),?_,?_⟩
      · rw [returnsOther rfl,paired]
      · rw [grown]
        simp [booked.count]
      · rw [grown]
        simp [booked.tracker]
  | recvIgnored d pc failed =>
    refine frame ?_ rfl (by rw [pc]; rfl) (.inl (by rw [pc]; rfl)) rfl rfl
    intro other same
    cases Option.some.inj same
    exact failed
  | copy len rb pc room written => exact bookedReturn booked (by rw [pc]; rfl) rfl rfl rfl rfl rfl
  | sleep len pc full => exact frame (by simp [arrival]) rfl (by rw [pc]; rfl) (.inr rfl) rfl rfl
  | wake len pc => exact frame (by simp [arrival]) rfl (by rw [pc]; rfl) (.inr rfl) rfl rfl
  | expire len pc => exact frame (by simp [arrival]) rfl (by rw [pc]; rfl) (.inr rfl) rfl rfl
  | timeout len pc => exact bookedReturn booked (by rw [pc]; rfl) rfl rfl rfl rfl rfl
  | accountReceived len pc => exact frame (by simp [arrival]) rfl (by rw [pc]; rfl) (.inr rfl) rfl rfl
  | accountDropped len ret pc failed =>
    exact frame (by simp [arrival]) rfl (by rw [pc]; rfl) (.inr rfl) rfl rfl

theorem bookedWriter {se trace s e t} (booked : Booked se trace s) (step : WriterStep s e t) :
    Booked se (trace ++ [e]) t := by
  have frame := @bookedFrame se trace s e t booked
  cases step with
  | read bytes rb pc filled taken =>
    exact frame (by simp [arrival]) rfl (signalNotFullPending _) (.inr rfl) rfl rfl
  | retry r pc again => rcases again with rfl | rfl <;> exact frame (by simp [arrival]) rfl rfl (.inr rfl) rfl rfl
  | _ => exact frame (by simp [arrival]) rfl rfl (.inr rfl) rfl rfl

theorem bookedStats {se trace s e t} (booked : Booked se trace s) (step : StatsStep s e t) :
    Booked se (trace ++ [e]) t := by
  cases step <;> exact bookedFrame booked (by simp [arrival]) rfl rfl (.inr rfl) rfl rfl

theorem bookedStep {se trace s e t} (booked : Booked se trace s) (step : next se s e = some t) :
    Booked se (trace ++ [e]) t := by
  rcases stepCases step with receiver | writer | stats
  · exact bookedReceiver booked receiver
  · exact bookedWriter booked writer
  · exact bookedStats booked stats

theorem bookedRun {se heap trace s} (run : exec (next se) (initial heap) trace = some s) :
    Booked se trace s :=
  history (I := Booked se) (bookedInitial se heap) (fun _ _ _ _ booked step => bookedStep booked step) run

end IPv4Media.ClientTrace
