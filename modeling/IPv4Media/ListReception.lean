import IPv4Media.ListCodec

/-! The loop in the client's main that waits for the programme list (client.c). len is
an int there and sizeof a size_t, so a failed recvfrom is no short message. -/
namespace IPv4Media.ListReception
open Octets Proto Socket

/- What the loop leaves behind. index counts the calls of recvfrom before the last. -/
structure Broken where
  index : Nat
  len : Int
  msgList : Bytes
  serverAddr : SockAddr
  deriving DecidableEq, Repr

def Broken.later (b : Broken) : Broken := { b with index := b.index + 1 }

def recvfromInto (msgList : Bytes) (serverAddr : SockAddr) : RecvResult → Bytes × SockAddr
  | .error _ => (msgList,serverAddr)
  | .datagram d => (deliver msgList d.bytes,d.source)

def passesTests (msgList : Bytes) (len : Int) : Bool :=
  if sizeT len < sizeofMsgList then false
  else if msgList.getD 0 0 ≠ listchnid then false
  else true

def mainLoop (msgList : Bytes) (serverAddr : SockAddr) : List RecvResult → Option Broken
  | [] => none
  | r :: results =>
    let (msgList,serverAddr) := recvfromInto msgList serverAddr r
    if passesTests msgList r.len then some ⟨0,r.len,msgList,serverAddr⟩
    else (mainLoop msgList serverAddr results).map Broken.later

def takenForList (bytes : Bytes) : Bool := decide (sizeofMsgList ≤ bytes.length ∧ bytes.getD 0 0 = listchnid)

theorem passesDatagram (msgList : Bytes) (d : Datagram) :
    passesTests (deliver msgList d.bytes) (RecvResult.len (.datagram d)) = takenForList d.bytes := by
  have fits := d.fits
  have max : msgChannelMax < 2^64 := by decide
  have size : sizeT (RecvResult.len (.datagram d)) = d.bytes.length := sizeTNat (by omega)
  have first : sizeofMsgList ≤ d.bytes.length → (deliver msgList d.bytes).getD 0 0 = d.bytes.getD 0 0 := by
    intro long
    simp only [sizeofMsgList,listEntryOffset,sizeofChnid] at long
    exact deliverGetD (by omega)
  unfold passesTests takenForList
  rw [size]
  by_cases long : sizeofMsgList ≤ d.bytes.length
  · rw [if_neg (by omega),first long]
    by_cases zero : d.bytes.getD 0 0 = listchnid
    · simp only [zero,long]
      rfl
    · rw [if_pos zero]
      exact (decide_eq_false fun both => zero both.2).symm
  · rw [if_pos (by omega)]
    exact (decide_eq_false fun both => long both.1).symm

theorem mainLoopDatagram (msgList : Bytes) (serverAddr : SockAddr) (d : Datagram) (results : List RecvResult) :
    mainLoop msgList serverAddr (.datagram d :: results) =
      if takenForList d.bytes then some ⟨0,d.bytes.length,deliver msgList d.bytes,d.source⟩
      else (mainLoop (deliver msgList d.bytes) d.source results).map Broken.later := by
  rw [mainLoop,recvfromInto]
  simp only [passesDatagram]
  rfl

def isList : RecvResult → Bool
  | .error _ => false
  | .datagram d => takenForList d.bytes

/- The first octet of the buffer after some results: that of the last datagram that has
one, else what malloc left there. -/
def firstOctet : RecvResult → Option UInt8
  | .error _ => none
  | .datagram d => d.bytes.head?

def frontOctet (heap : Bytes) (results : List RecvResult) : UInt8 :=
  (results.filterMap firstOctet).getLast?.getD (heap.getD 0 0)

def LeavesOnList (heap : Bytes) (serverAddr : SockAddr) (results : List RecvResult) : Prop :=
  ∀ b, mainLoop heap serverAddr results = some b → ∃ d, results[b.index]? = some (.datagram d) ∧
    sizeofMsgList ≤ d.bytes.length ∧ d.bytes.getD 0 0 = listchnid ∧ b.len = d.bytes.length ∧
    b.serverAddr = d.source

/- No error comes while the front octet is that of a list, unless a list came before it. -/
def ErrorsPass (heap : Bytes) (results : List RecvResult) : Prop :=
  ∀ before eintr after, results = before ++ .error eintr :: after → before.any isList = false →
    frontOctet heap before ≠ listchnid

/- sizeof makes -1 the largest size, so the length test holds nothing back. -/
theorem passesError (msgList : Bytes) (eintr : Bool) :
    passesTests msgList (RecvResult.len (.error eintr)) = decide (msgList.getD 0 0 = listchnid) := by
  have long : ¬ sizeT (-1) < sizeofMsgList := by decide
  unfold passesTests RecvResult.len
  rw [if_neg long]
  by_cases zero : msgList.getD 0 0 = listchnid
  · rw [if_neg (not_not.mpr zero),decide_eq_true zero]
  · rw [if_pos zero,decide_eq_false zero]

theorem mainLoopError (msgList : Bytes) (serverAddr : SockAddr) (eintr : Bool) (results : List RecvResult) :
    mainLoop msgList serverAddr (.error eintr :: results) =
      if msgList.getD 0 0 = listchnid then some ⟨0,-1,msgList,serverAddr⟩
      else (mainLoop msgList serverAddr results).map Broken.later := by
  rw [mainLoop,recvfromInto]
  simp only [passesError,decide_eq_true_eq]
  rfl

theorem frontError (heap : Bytes) (eintr : Bool) (before : List RecvResult) :
    frontOctet heap (.error eintr :: before) = frontOctet heap before := rfl

theorem frontDatagram (heap : Bytes) (d : Datagram) (before : List RecvResult) :
    frontOctet heap (.datagram d :: before) = frontOctet (deliver heap d.bytes) before := by
  cases bytes : d.bytes with
  | nil => simp [frontOctet,firstOctet,deliver,bytes]
  | cons b rest => simp [frontOctet,firstOctet,deliver,bytes,List.getLast?_cons]

theorem leavesLater {heap next : Bytes} {serverAddr sender : SockAddr} {r : RecvResult} {results : List RecvResult}
    (goes : mainLoop heap serverAddr (r :: results) = (mainLoop next sender results).map Broken.later) :
    LeavesOnList heap serverAddr (r :: results) ↔ LeavesOnList next sender results := by
  unfold LeavesOnList
  rw [goes]
  constructor
  · intro leaves b left
    simpa [Broken.later] using leaves b.later (by rw [left]; rfl)
  · intro leaves b left
    obtain ⟨c,before,rfl⟩ := Option.map_eq_some_iff.mp left
    simpa [Broken.later] using leaves c before

theorem errorsPassLater {heap next : Bytes} {r : RecvResult} {results : List RecvResult} (other : isList r = false)
    (front : ∀ before, frontOctet heap (r :: before) = frontOctet next before)
    (here : ∀ eintr, r = .error eintr → heap.getD 0 0 ≠ listchnid) :
    ErrorsPass heap (r :: results) ↔ ErrorsPass next results := by
  constructor
  · intro pass before eintr after split none_
    rw [← front]
    exact pass (r :: before) eintr after (by rw [split]; rfl) (by simp [other,none_])
  · intro pass before eintr after split none_
    cases before with
    | nil => exact here eintr (List.cons.inj split).1
    | cons first before =>
      obtain ⟨rfl,rest⟩ := List.cons.inj split
      rw [front]
      simp only [List.any_cons,Bool.or_eq_false_iff] at none_
      exact pass before eintr after rest none_.2

theorem listLoopLeaves (heap : Bytes) (serverAddr : SockAddr) (results : List RecvResult) :
    LeavesOnList heap serverAddr results ↔ ErrorsPass heap results := by
  induction results generalizing heap serverAddr with
  | nil =>
    refine iff_of_true (by simp [LeavesOnList,mainLoop]) ?_
    intro before eintr after split
    simp at split
  | cons r results ih =>
    cases r with
    | error eintr =>
      have goes := mainLoopError heap serverAddr eintr results
      by_cases zero : heap.getD 0 0 = listchnid
      · rw [if_pos zero] at goes
        refine iff_of_false (fun leaves => ?_) (fun pass => pass [] eintr results rfl rfl zero)
        obtain ⟨d,found,_⟩ := leaves _ goes
        simp at found
      · rw [if_neg zero] at goes
        rw [leavesLater goes,ih]
        exact (errorsPassLater rfl (frontError heap eintr) (fun _ _ => zero)).symm
    | datagram d =>
      have goes := mainLoopDatagram heap serverAddr d results
      by_cases taken : takenForList d.bytes = true
      · rw [if_pos taken] at goes
        refine iff_of_true ?_ ?_
        · intro b left
          cases Option.some.inj (goes.symm.trans left)
          obtain ⟨long,zero⟩ := of_decide_eq_true taken
          exact ⟨d,rfl,long,zero,rfl,rfl⟩
        · intro before eintr after split none_
          cases before with
          | nil => cases split
          | cons first before =>
            obtain ⟨rfl,_⟩ := List.cons.inj split
            simp [isList,taken] at none_
      · rw [if_neg taken] at goes
        rw [leavesLater goes,ih]
        exact (errorsPassLater (by simpa [isList] using taken) (frontDatagram heap d) (by simp)).symm

def zeroed : Bytes := List.replicate msgListMax 0

theorem interruptTaken : ¬ LeavesOnList zeroed ⟨0,0⟩ [.error true] := by
  intro leaves
  have front : zeroed.getD 0 0 = listchnid := by
    simp only [zeroed,List.getD,List.getElem?_replicate]
    rfl
  have left := mainLoopError zeroed ⟨0,0⟩ true []
  rw [if_pos front] at left
  obtain ⟨d,found,_⟩ := leaves _ left
  cases found

end IPv4Media.ListReception
