import IPv4Media.Broadcast
import IPv4Media.ChannelChoice
import IPv4Media.ListReception
import IPv4Media.StartUp

/-! main of the client (client.c) up to the threads it starts, and what its listener gets.
getopt_long is known by what it returns, the network by what recvfrom returns to the loop
over the list, and the listener by what is typed. -/
namespace IPv4Media.TuneIn
open Octets Proto Socket Receiver ClientRing ClientThreads ClientTrace ClientStream ReceiverBooks Playlist ChannelSender
open ServerStream MediaLibrary ChannelIds ListCodec ListReception Formats ChannelChoice Execution Interleaving Server
open Broadcast

structure ClientConf where
  rcvport : String
  mgroup : String
  playerCmd : String
  deriving DecidableEq, Repr

def clientConf : ClientConf := ⟨"1989","224.2.2.2"," /usr/bin/mpg123 -   > /dev/null"⟩

/- How main ends before its threads run, or where it stays. In unread it has read past its
buffer, or goes round in the list for ever; player is the child, which is mpg123 by then. -/
inductive Ended where
  | exited (status : Nat)
  | aborted
  | listening
  | unread
  | asking
  | player
  deriving DecidableEq, Repr

-- No code reads player_cmd after this: the child runs the same mpg123 whatever -p says.
def setOption (conf : ClientConf) : Char × String → Except Ended ClientConf
  | ('P',optarg) => .ok { conf with rcvport := optarg }
  | ('M',optarg) => .ok { conf with mgroup := optarg }
  | ('p',optarg) => .ok { conf with playerCmd := optarg }
  | ('H',_) => .error (.exited 0)
  | _ => .error .aborted

def setOptions : ClientConf → List (Char × String) → Except Ended ClientConf
  | conf, [] => .ok conf
  | conf, opt :: opts => do
    let conf ← setOption conf opt
    setOptions conf opts

inductive Fork where
  | failed
  | child
  | parent
  deriving DecidableEq, Repr

/- What the system answers. A receive buffer that stays small is no error. -/
structure World where
  socket : Bool
  addMembership : Bool
  multicastLoop : Bool
  bind : Bool
  pipe : Bool
  memory : Bool
  fork : Fork
  receiver : Bool
  writer : Bool
  stats : Bool

def needs (answer : Bool) : Except Ended Unit := if answer then .ok () else .error (.exited 1)

def initSocket (w : World) : Except Ended Unit := do
  needs w.socket
  needs w.addMembership
  needs w.multicastLoop
  needs w.bind
  needs w.pipe
  needs w.memory

def receiveList (msgList : Bytes) (serverAddr : SockAddr) (results : List RecvResult) : Except Ended Broken :=
  match mainLoop msgList serverAddr results with
  | none => .error .listening
  | some b => .ok b

/- What printf is given, entry by entry. No entry is shorter than an octet, or the walk
does not end. -/
def showList (o : ByteOrder) (b : Broken) : Except Ended (List Visit) :=
  match walk o b.msgList b.len (b.len.toNat + 1) listEntryOffset with
  | none => .error .unread
  | some (visits,_) => .ok visits

def chooseChannel (beyond : Int → Int) (typed : Bytes) : Except Ended Int :=
  match chooseLoop beyond (typed.length + 1) typed with
  | some (.chosen chosenid _) => .ok chosenid
  | _ => .error .asking

/- The list is not looked at here. -/
def checkChannel (chosenid : Int) : Except Ended Unit :=
  if chosenid < minchnid ∨ chosenid > maxchnid then .error (.exited 1) else .ok ()

def startThreads (w : World) : Except Ended Unit :=
  match w.fork with
  | .failed => .error (.exited 1)
  | .child => .error .player
  | .parent => do
    needs w.receiver
    needs w.writer
    needs w.stats

structure TunedIn where
  conf : ClientConf
  shown : List Visit
  session : Session
  deriving DecidableEq, Repr

/- msgList is what malloc left there, serverAddr what the stack held. -/
def main (o : ByteOrder) (w : World) (beyond : Int → Int) (opts : List (Char × String)) (msgList : Bytes)
    (serverAddr : SockAddr) (results : List RecvResult) (typed : Bytes) : Except Ended TunedIn := do
  let conf ← setOptions clientConf opts
  initSocket w
  let b ← receiveList msgList serverAddr results
  let shown ← showList o b
  let chosenid ← chooseChannel beyond typed
  checkChannel chosenid
  startThreads w
  .ok ⟨conf,shown,⟨o,chosenid,b.serverAddr⟩⟩

structure MainSource (o : ByteOrder) (beyond : Int → Int) (msgList : Bytes) (serverAddr : SockAddr) (results : List RecvResult)
    (typed : Bytes) (r : TunedIn) (b : Broken) : Prop where
  left : mainLoop msgList serverAddr results = some b
  shown : ∃ last, walk o b.msgList b.len (b.len.toNat + 1) listEntryOffset = some (r.shown,last)
  chosen : ∃ rest, Chosen beyond typed r.session.chosenChannel rest
  range : (minchnid : Int) ≤ r.session.chosenChannel ∧ r.session.chosenChannel ≤ maxchnid
  session : r.session.order = o ∧ r.session.serverAddr = b.serverAddr

theorem chooseChannelOk {beyond : Int → Int} {typed : Bytes} {n : Int} :
    chooseChannel beyond typed = .ok n ↔ ∃ rest, Chosen beyond typed n rest := by
  obtain ⟨c,looped,decided⟩ := chooseDecided beyond typed (Nat.lt_succ_self _)
  rw [chooseChannel,looped]
  simp only [← decided.1]
  cases c <;> simp

/- Whatever is typed: the number of the first line that starts with one, blanks and empty
lines before it not counted, is the choice. Where no line does, or that line has no end,
main reads EOF for ever. -/
theorem listenerChoice (beyond : Int → Int) (typed : Bytes) :
    (∀ n, chooseChannel beyond typed = .ok n ↔ ∃ rest, Chosen beyond typed n rest) ∧
    (chooseChannel beyond typed = .error .asking ↔ ∀ n rest, ¬ Chosen beyond typed n rest) := by
  refine ⟨fun n => chooseChannelOk,?_⟩
  obtain ⟨c,looped,decided⟩ := chooseDecided beyond typed (Nat.lt_succ_self _)
  rw [← decided.2,chooseChannel,looped]
  cases c <;> simp

theorem mainSound {o : ByteOrder} {w : World} {beyond : Int → Int} {opts : List (Char × String)} {msgList : Bytes}
    {serverAddr : SockAddr} {results : List RecvResult} {typed : Bytes} {r : TunedIn}
    (ran : main o w beyond opts msgList serverAddr results typed = .ok r) :
    ∃ b, MainSource o beyond msgList serverAddr results typed r b := by
  obtain ⟨conf,_,ran⟩ := bindOk ran
  obtain ⟨_,_,ran⟩ := bindOk ran
  obtain ⟨b,listed,ran⟩ := bindOk ran
  obtain ⟨shown,walked,ran⟩ := bindOk ran
  obtain ⟨n,picked,ran⟩ := bindOk ran
  obtain ⟨_,checked,ran⟩ := bindOk ran
  obtain ⟨_,_,last⟩ := bindOk ran
  cases Except.ok.inj last
  unfold receiveList at listed
  split at listed <;> try contradiction
  rename_i found
  cases Except.ok.inj listed
  unfold showList at walked
  split at walked <;> try contradiction
  rename_i visits stop seen
  cases Except.ok.inj walked
  unfold checkChannel at checked
  split at checked <;> try contradiction
  rename_i within
  exact ⟨b,found,⟨stop,seen⟩,chooseChannelOk.mp picked,by simp only; omega,rfl,rfl⟩

theorem walkMore {o : ByteOrder} {mem : Bytes} {len : Int} {n pos : Nat} {r : List Visit × Nat}
    (walked : walk o mem len n pos = some r) (k : Nat) : walk o mem len (n+k) pos = some r := by
  induction n generalizing pos r with
  | zero => cases walked
  | succ n ih =>
    rw [Nat.succ_add,walk]
    rw [walk] at walked
    split
    · rename_i below
      rw [if_pos below] at walked
      obtain ⟨⟨v,step⟩,seen,walked⟩ := Option.bind_eq_some_iff.mp walked
      obtain ⟨⟨rest,last⟩,onward,same⟩ := Option.bind_eq_some_iff.mp walked
      simp only [seen,ih onward,Option.bind_eq_bind,Option.bind_some]
      exact same
    · rename_i past
      rw [if_neg past] at walked
      exact walked

theorem mainLoopList {msgList : Bytes} {serverAddr : SockAddr} {before after : List RecvResult} {d : Datagram}
    (none_ : mainLoop msgList serverAddr before = none) (taken : takenForList d.bytes = true) :
    ∃ b buf, mainLoop msgList serverAddr (before ++ .datagram d :: after) = some b ∧ b.len = d.bytes.length ∧
      b.msgList = deliver buf d.bytes ∧ b.serverAddr = d.source := by
  induction before generalizing msgList serverAddr with
  | nil =>
    have left := mainLoopDatagram msgList serverAddr d after
    rw [if_pos taken] at left
    exact ⟨_,msgList,left,rfl,rfl,rfl⟩
  | cons r before ih =>
    rw [mainLoop] at none_
    simp only at none_
    split at none_ <;> try contradiction
    rename_i goes
    obtain ⟨b,buf,left,len,here,sender⟩ := ih (Option.map_eq_none_iff.mp none_)
    refine ⟨b.later,buf,?_,len,here,sender⟩
    rw [List.cons_append,mainLoop]
    simp only [if_neg goes,left,Option.map_some]

theorem shownList {o : ByteOrder} {beyond : Int → Int} {msgList : Bytes} {serverAddr : SockAddr} {typed : Bytes}
    {r : TunedIn} {b : Broken} {before after : List RecvResult} {d : Datagram} {entries : List MlibListentry}
    (source : MainSource o beyond msgList serverAddr (before ++ .datagram d :: after) typed r b)
    (none_ : mainLoop msgList serverAddr before = none) (list : d.bytes = encodeList entries) (some_ : entries ≠ [])
    (fits : totalsize entries ≤ msgListMax) :
    r.session.serverAddr = d.source ∧ r.shown.map (fun v => (v.chnid,v.desc)) = entries.map fun e => (e.chnid,e.desc) := by
  have size := totalsizeEncoded entries
  have many := ListPublication.totalsizeSum entries
  have positive := List.length_pos_iff.mpr some_
  simp only [sizeofChnid,sizeofMsgListentry,entryDescOffset,sizeofLen] at many
  have taken : takenForList d.bytes = true := by
    rw [list]
    refine decide_eq_true ⟨?_,rfl⟩
    simp only [sizeofMsgList,listEntryOffset,sizeofChnid,sizeofMsgListentry,entryDescOffset,sizeofLen]
    omega
  obtain ⟨other,buf,left,len,here,sender⟩ := @mainLoopList msgList serverAddr before after d none_ taken
  cases Option.some.inj (left.symm.trans source.left)
  obtain ⟨last,walked⟩ := source.shown
  have whole := walkMore (walkDelivered o fits buf) ((encodeList entries).length - entries.length)
  have steps : entries.length + 1 + ((encodeList entries).length - entries.length) = (encodeList entries).length + 1 := by
    omega
  rw [here,len,list,Int.toNat_natCast] at walked
  rw [steps] at whole
  obtain ⟨visits,_⟩ := Prod.mk.inj (Option.some.inj (whole.symm.trans walked))
  refine ⟨source.session.2.trans sender,?_⟩
  rw [← visits]
  exact visitsEntries _ _

theorem strangerSilent {φ : Type} {st : Station φ} {se : Session} (apart : ListApart st se)
    (strange : ∀ k, ((owner st k).chnid.toNat : Int) ≠ se.chosenChannel) {heap : Bytes} {es : List (Broadcast.Event st)}
    {t : Radio st} (run : exec (radioNext st se) (onAir st heap) es = some t) (running : t.client.writer ≠ .left) :
    t.client.pipe ++ unwritten t.client ++ queue t.client.rb = [] := by
  have tuned := tunedRun run
  obtain ⟨es,served⟩ := tuned.server
  obtain ⟨trace,heard,same⟩ := tuned.client
  have passed := offersPass se trace
  rw [same,strangerPasses apart strange served tuned.inside] at passed
  have none_ := List.map_eq_nil_iff.mp passed
  rw [(streamRun heard).flow running,acceptedZeros,none_]
  rfl

/- Both programs from main on. The client's loop over the list is left on a list of the
server's. Whoever then asks for a channel shown gets stretches of the files of the directory
shown under that number, whatever the network does; whoever asks for another gets nothing,
unless the list itself is taken for that channel. -/
theorem tunedIn {φ : Type} {ws : StartUp.World φ} {opts : List (Char × String)} {s : StartUp.Running φ}
    {dirs : List (MediaDir φ)} (ran : StartUp.main ws opts = .ok s) (globbed : ws.globbed s.conf.mediaDir = some dirs)
    (suffice_ : IdsSuffice (UInt8.ofNat minchnid) dirs) {content : Path → Bytes} {behind : φ → Bytes}
    (media : ∀ d ∈ dirs, StartUp.Media content behind d) (fits : totalsize s.scanned.entries ≤ msgListMax)
    {o : ByteOrder} {w : World} {beyond : Int → Int} {args : List (Char × String)} {msgList : Bytes} {serverAddr : SockAddr}
    {before after : List RecvResult} {d : Datagram} {typed : Bytes} {r : TunedIn}
    (joined : main o w beyond args msgList serverAddr (before ++ .datagram d :: after) typed = .ok r)
    (none_ : mainLoop msgList serverAddr before = none) (list : d.bytes = encodeList s.scanned.entries) :
    r.session.serverAddr = d.source ∧
    r.shown.map (fun v => (v.chnid,v.desc)) = s.scanned.owners.map (fun ch => (ch.chnid,ch.desc)) ∧
    (ListApart (StartUp.station o content behind s) r.session → ∀ heap es t,
      exec (radioNext (StartUp.station o content behind s) r.session) (onAir _ heap) es = some t →
      t.client.writer ≠ .left →
      ((∀ v ∈ r.shown, (v.chnid.toNat : Int) ≠ r.session.chosenChannel) →
        t.client.pipe ++ unwritten t.client ++ queue t.client.rb = []) ∧
      ∀ v ∈ r.shown, (v.chnid.toNat : Int) = r.session.chosenChannel → ∃ dir ∈ dirs,
        (∃ linebuf, dir.descTxt.bind (fgets lineBufSize) = some linebuf ∧ v.desc = strdup linebuf) ∧
        ∃ pieces : List Bytes, t.client.pipe ++ unwritten t.client ++ queue t.client.rb = pieces.flatten ∧
          ∀ piece ∈ pieces, ∃ front laps,
            front ++ piece <+: (List.replicate laps (blocks content dir.mp3).flatten).flatten) := by
  have server := StartUp.mainSound ran
  have staffed := StartUp.staffedMain server globbed suffice_
  obtain ⟨b,source⟩ := mainSound joined
  obtain ⟨sender,shown⟩ := shownList source none_ list server.some_ fits
  rw [staffed.listed] at shown
  refine ⟨sender,shown,fun apart heap es t run running => ⟨fun strange => ?_,fun v visited picked => ?_⟩⟩
  · refine strangerSilent apart (fun k same => ?_) run running
    have member : ((s.scanned.owners.get k).chnid,(s.scanned.owners.get k).desc) ∈ r.shown.map fun v => (v.chnid,v.desc) := by
      rw [shown]
      exact List.mem_map_of_mem (List.get_mem _ k)
    obtain ⟨v,visited,announced⟩ := List.mem_map.mp member
    have id : v.chnid = (s.scanned.owners.get k).chnid := congrArg Prod.fst announced
    exact strange v visited (by rw [id]; exact same)
  · have member : (v.chnid,v.desc) ∈ s.scanned.owners.map fun ch => (ch.chnid,ch.desc) := by
      rw [← shown]
      exact List.mem_map_of_mem visited
    obtain ⟨ch,owns,announced⟩ := List.mem_map.mp member
    obtain ⟨id,desc⟩ := Prod.mk.inj announced
    obtain ⟨k,rfl⟩ := List.get_of_mem owns
    have listens : Listens (StartUp.station o content behind s) r.session k :=
      ⟨source.session.1,by rw [← picked,← id]; rfl,fun j same => StartUp.staffedAlone staffed same,apart⟩
    obtain ⟨dir,there,made⟩ := StartUp.ownerDir staffed.owned k
    obtain ⟨linebuf,line,copied⟩ := made.desc
    obtain ⟨js,_,flow⟩ := heardFlow listens run running
    obtain ⟨es,served⟩ := (tunedRun run).server
    refine ⟨dir,(List.mem_filter.mp (List.mem_of_getElem? there)).1,⟨linebuf,line,desc.symm.trans copied⟩,_,flow,?_⟩
    intro piece among
    obtain ⟨j,_,rfl⟩ := List.mem_map.mp among
    obtain ⟨laps,stretch⟩ := payloadStretch (c := k) (StartUp.staffedReady staffed media o) served j
    rw [← made.files]
    exact ⟨_,laps,stretch⟩

/- The server of StartUp, its one channel on the wire between two lists, and a client that
hears the first list, asks for channel 1 and hears the music. -/
def serving : StartUp.Running Path where
  conf := StartUp.serverConf
  scanned := (scan { unscanned with written := [] } [StartUp.plainDir,StartUp.discDir]).get rfl
  listThread := true
  registry := ChannelRegistry.thrChannelCreate ChannelRegistry.initial 1

def discStation : Station Path := StartUp.station .little sampleContent sampleContent serving

def discStep (e : FlowControl.Event sampleContent sampleContent [[1],[3]]) : Sigma (Label discStation) :=
  ⟨some ⟨0,Nat.zero_lt_one⟩,e⟩

def willingWorld : World := ⟨true,true,true,true,true,true,.parent,true,true,true⟩

def publishedList : Datagram := ⟨⟨1,1989⟩,[0,1,0,6,74,10,0],by decide⟩

def typedOne : Bytes := [110,111,110,101,10,49,10]

def discListener : Session := ⟨.little,1,⟨1,1989⟩⟩

theorem discJoined : main .little willingWorld id [] [9] ⟨0,0⟩ [.error false,.datagram publishedList] typedOne =
    .ok ⟨clientConf,[⟨1,1,[74,10]⟩],discListener⟩ := by decide +kernel

def discEvening : List (Broadcast.Event discStation) :=
  [.server ⟨none,true⟩,.client (.receiverStart true),.client .receiverLoop] ++
    [FlowControl.Event.tick,.fetch,.read sampleServer 1,.giveBack,.send true].map (fun e => .server (discStep e)) ++
    [.hear 0,.client .receiverLoop,.hear 1,.client .ringWriteCopy,.client .account]

theorem discShown : ∃ t, exec (radioNext discStation discListener) (onAir discStation []) discEvening = some t ∧
    (t.client.writer,t.client.pipe ++ unwritten t.client ++ queue t.client.rb) = (.awaitReady,[10,11,12]) :=
  Option.map_eq_some_iff.mp (by decide +kernel)

theorem discTuned : ∃ r t, main .little willingWorld id [] [9] ⟨0,0⟩ [.error false,.datagram publishedList] typedOne = .ok r ∧
    exec (radioNext discStation r.session) (onAir discStation []) discEvening = some t ∧
    ∀ v ∈ r.shown, (v.chnid.toNat : Int) = 1 → ∃ dir ∈ [StartUp.plainDir,StartUp.discDir],
      ∃ pieces : List Bytes, [10,11,12] = pieces.flatten ∧
        ∀ piece ∈ pieces, ∃ front laps, front ++ piece <+: (List.replicate laps (blocks sampleContent dir.mp3).flatten).flatten := by
  obtain ⟨t,run,played⟩ := discShown
  obtain ⟨writer,played⟩ := Prod.mk.inj played
  have apart : ListApart discStation discListener := by
    intro e rest listed
    obtain ⟨rfl,_⟩ := List.cons.inj listed
    decide
  refine ⟨_,t,discJoined,run,?_⟩
  have tuned := @tunedIn _ StartUp.sampleWorld [] serving [StartUp.plainDir,StartUp.discDir] rfl rfl ⟨by decide,by decide⟩
    sampleContent sampleContent StartUp.sampleMedia (by decide) .little willingWorld id [] [9] ⟨0,0⟩ [.error false] []
    publishedList typedOne _ discJoined (by decide +kernel) rfl
  intro v visited picked
  obtain ⟨_,directory⟩ := tuned.2.2 apart [] discEvening t run (by rw [writer]; decide)
  obtain ⟨dir,member,_,pieces,flow,each⟩ := directory v visited picked
  rw [played] at flow
  exact ⟨dir,member,pieces,flow,each⟩

end IPv4Media.TuneIn
