import IPv4Media.ChannelIds
import IPv4Media.ChannelRegistry
import IPv4Media.ListPublication
import IPv4Media.Server

/-! main of the server (server.c): the options, the socket, the scan, and the threads it
starts before it waits for a signal. getopt is known by what it returns, option by
option. -/
namespace IPv4Media.StartUp
open Octets Proto Playlist ChannelSender ServerStream MediaLibrary ChannelIds ChannelRegistry ListCodec Formats
open Execution Interleaving Server

def runDaemon : Nat := 1
def runForeground : Nat := 2

structure ServerConf where
  rcvport : String
  mgroup : String
  mediaDir : String
  runmode : Nat
  ifname : String
  deriving DecidableEq, Repr

def serverConf : ServerConf := ⟨"1989","224.2.2.2","../medialib",runForeground,"ens33"⟩

/- How main ends before it comes to its last loop. In invalid it reads a list entry that is
not there. -/
inductive Ended where
  | exited (status : Nat)
  | aborted
  | invalid
  deriving DecidableEq, Repr

-- -F has a case of its own, but it does nothing.
def setOption (conf : ServerConf) : Char × String → Except Ended ServerConf
  | ('M',optarg) => .ok { conf with mgroup := optarg }
  | ('P',optarg) => .ok { conf with rcvport := optarg }
  | ('F',_) => .ok conf
  | ('D',optarg) => .ok { conf with mediaDir := optarg }
  | ('I',optarg) => .ok { conf with ifname := optarg }
  | ('H',_) => .error (.exited 0)
  | _ => .error .aborted

def setOptions : ServerConf → List (Char × String) → Except Ended ServerConf
  | conf, [] => .ok conf
  | conf, opt :: opts => do
    let conf ← setOption conf opt
    setOptions conf opts

inductive Fork where
  | failed
  | parent
  | child (devNull : Bool)
  deriving DecidableEq, Repr

def daemonize : Fork → Except Ended Int
  | .failed => .ok (-1)
  | .parent => .error (.exited 0)
  | .child false => .ok (-2)
  | .child true => .ok 0

/- What the system answers on the way. globbed depends on the media directory, and
created n is what the n-th pthread_create for a channel returns. -/
structure World (φ : Type) where
  fork : Fork
  socket : Bool
  multicastIf : Bool
  globbed : String → Option (List (MediaDir φ))
  listCreated : Bool
  created : Nat → Nat

variable {φ : Type}

-- A daemonize that fails is reported and nothing more.
def enterRunmode (w : World φ) (conf : ServerConf) : Except Ended Unit :=
  if conf.runmode = runDaemon then do
    let _ ← daemonize w.fork
    .ok ()
  else if conf.runmode = runForeground then .ok ()
  else .error (.exited 1)

def socketInit (w : World φ) : Except Ended Unit :=
  if w.socket ∧ w.multicastIf then .ok () else .error (.exited 1)

def getchnlist (w : World φ) (conf : ServerConf) : Except Ended (Scanned φ) :=
  match mlibGetchnlist unscanned (w.globbed conf.mediaDir) with
  | none => .error (.exited 1)
  | some (err,scanned) => if err = 0 then .ok scanned else .error (.exited 1)

/- Whether the thread is there. Its log line reads the first entry, and main does not look
at what it returns. -/
def thrListCreate (created : Bool) : List MlibListentry → Except Ended Bool
  | [] => .error .invalid
  | _ :: _ => .ok created

def threadCreate (err : Nat) (s : Registry) (chnid : UInt8) : Int × Registry :=
  if err = 0 then (0,thrChannelCreate s chnid) else (-err,access s s.tidNextpos)

def createThreads (created : Nat → Nat) : Nat → Registry → List MlibListentry → Except Ended Registry
  | _, s, [] => .ok s
  | i, s, e :: entries =>
    let (err,s) := threadCreate (created i) s e.chnid
    if err ≠ 0 then .error (.exited 1) else createThreads created (i+1) s entries

structure Running (φ : Type) where
  conf : ServerConf
  scanned : Scanned φ
  listThread : Bool
  registry : Registry

def main (w : World φ) (opts : List (Char × String)) : Except Ended (Running φ) := do
  let conf ← setOptions serverConf opts
  enterRunmode w conf
  socketInit w
  let scanned ← getchnlist w conf
  let listThread ← thrListCreate w.listCreated scanned.entries
  let registry ← createThreads w.created 0 initial scanned.entries
  .ok ⟨conf,scanned,listThread,registry⟩

theorem setOptionRunmode {conf next : ServerConf} {opt : Char × String} (set : setOption conf opt = .ok next) :
    next.runmode = conf.runmode := by
  unfold setOption at set
  split at set <;> first | contradiction | cases Except.ok.inj set; rfl

theorem setOptionsRunmode {conf last : ServerConf} {opts : List (Char × String)} (set : setOptions conf opts = .ok last) :
    last.runmode = conf.runmode := by
  induction opts generalizing conf with
  | nil =>
    cases Except.ok.inj set
    rfl
  | cons opt opts ih =>
    obtain ⟨next,first,rest⟩ := bindOk set
    exact (ih rest).trans (setOptionRunmode first)

structure MainSource (w : World φ) (opts : List (Char × String)) (s : Running φ) : Prop where
  options : setOptions serverConf opts = .ok s.conf
  scan : mlibGetchnlist unscanned (w.globbed s.conf.mediaDir) = some (0,s.scanned)
  some_ : s.scanned.entries ≠ []
  list : s.listThread = w.listCreated
  threads : createThreads w.created 0 initial s.scanned.entries = .ok s.registry

theorem mainSound {w : World φ} {opts : List (Char × String)} {s : Running φ} (ran : main w opts = .ok s) :
    MainSource w opts s := by
  obtain ⟨conf,options,ran⟩ := bindOk ran
  obtain ⟨_,_,ran⟩ := bindOk ran
  obtain ⟨_,_,ran⟩ := bindOk ran
  obtain ⟨scanned,listed,ran⟩ := bindOk ran
  obtain ⟨listThread,published,ran⟩ := bindOk ran
  obtain ⟨registry,created,last⟩ := bindOk ran
  cases Except.ok.inj last
  unfold getchnlist at listed
  split at listed <;> try contradiction
  rename_i err answer called
  split at listed <;> try contradiction
  rename_i zero
  cases Except.ok.inj listed
  subst zero
  cases entries : scanned.entries with
  | nil =>
    rw [entries] at published
    contradiction
  | cons e rest =>
    rw [entries] at published
    cases Except.ok.inj published
    exact ⟨options,called,by simp [entries],rfl,created⟩

theorem threadCreateOk {err : Nat} {s : Registry} {chnid : UInt8} (zero : ¬ (threadCreate err s chnid).1 ≠ 0) :
    (threadCreate err s chnid).2 = thrChannelCreate s chnid := by
  unfold threadCreate at zero ⊢
  split
  · rfl
  · rename_i failed
    simp only [if_neg failed] at zero
    omega

structure Started (entries : List MlibListentry) (s : Registry) : Prop where
  registered : Registered s
  threads : s.threads = entries.map fun e => e.chnid
  joins : ∀ t, s.joins t = 0
  subscripts : s.subscripts = List.range entries.length

theorem startedCreate {before : List MlibListentry} {s : Registry} {e : MlibListentry} (started : Started before s)
    (id : ChannelId e.chnid) (new : e.chnid ∉ before.map fun e => e.chnid) (room : before.length < channum) :
    Started (before ++ [e]) (thrChannelCreate s e.chnid) := by
  have size : s.threads.length = before.length := by rw [started.threads,List.length_map]
  have free : s.tidNextpos = before.length := started.registered.next.trans size
  have unused : Unused s e.chnid := by
    rintro t _ ⟨there,_⟩
    rw [started.threads] at there
    exact new (List.mem_of_getElem? there)
  refine ⟨registeredCreate started.registered id unused (by omega),?_,started.joins,?_⟩
  · simp [thrChannelCreate,started.threads]
  · simp [thrChannelCreate,access,started.subscripts,free,List.range_succ]

theorem createdAll {created : Nat → Nat} {before entries : List MlibListentry} {i : Nat} {s t : Registry}
    (started : Started before s) (ids : ∀ e ∈ entries, ChannelId e.chnid)
    (distinct : ((before ++ entries).map fun e => e.chnid).Nodup) (room : (before ++ entries).length ≤ channum)
    (ran : createThreads created i s entries = .ok t) : Started (before ++ entries) t := by
  induction entries generalizing before i s with
  | nil =>
    cases Except.ok.inj ran
    simpa using started
  | cons e entries ih =>
    simp only [createThreads] at ran
    split at ran <;> try contradiction
    rename_i zero
    rw [threadCreateOk zero] at ran
    have shifted : before ++ e :: entries = before ++ [e] ++ entries := by simp
    rw [shifted] at distinct room ⊢
    have new : e.chnid ∉ before.map fun e => e.chnid := by
      rw [List.map_append,List.map_append] at distinct
      have apart := (List.nodup_append.mp (List.nodup_append.mp distinct).1).2.2
      exact fun used => apart _ used _ (by simp) rfl
    rw [List.length_append,List.length_append,List.length_singleton] at room
    have next := startedCreate started (ids e List.mem_cons_self) new (by omega)
    refine ih next (fun other member => ids other (List.mem_cons_of_mem e member)) distinct ?_ ran
    simp only [List.length_append,List.length_singleton]
    omega

theorem idsFew {entries : List MlibListentry} (range : ∀ e ∈ entries, ChannelId e.chnid)
    (distinct : (entries.map fun e => e.chnid).Nodup) : entries.length ≤ channum := by
  have numbers : ((entries.map fun e => e.chnid).map UInt8.toNat).Nodup :=
    (List.nodup_map_iff (fun _ _ same => UInt8.toNat_inj.mp same)).mpr distinct
  have within : ((entries.map fun e => e.chnid).map UInt8.toNat) ⊆ List.range' 1 channum := by
    intro n member
    obtain ⟨id,inside,rfl⟩ := List.mem_map.mp member
    obtain ⟨e,entry,rfl⟩ := List.mem_map.mp inside
    obtain ⟨low,high⟩ := range e entry
    simp only [minchnid,maxchnid,channum] at low high
    exact List.mem_range'_1.mpr ⟨low,by simp only [channum]; omega⟩
  have count := (numbers.subperm within).length_le
  simpa using count

theorem startedRun {w : World φ} {opts : List (Char × String)} {s : Running φ} {dirs : List (MediaDir φ)}
    (source : MainSource w opts s) (globbed : w.globbed s.conf.mediaDir = some dirs)
    (suffice_ : IdsSuffice (UInt8.ofNat minchnid) dirs) : Started s.scanned.entries s.registry := by
  have called := source.scan
  rw [globbed] at called
  have ids := scanOf called
  have range := (idsInRange ids).mpr suffice_.range
  have distinct := (distinctIds ids).mpr suffice_.distinct
  have blank : Started [] initial := ⟨registeredInitial,rfl,fun _ => rfl,rfl⟩
  exact @createdAll w.created [] _ 0 _ _ blank range distinct (idsFew range distinct) source.threads

structure Owns (d : MediaDir φ) (ch : ChannelContext φ) : Prop where
  files : ch.mp3glob = d.mp3
  pos : ch.pos = 0
  offset : ch.offset = 0
  fd : ch.fd = d.opened
  open_ : ch.fd ≠ none
  desc : ∃ linebuf, d.descTxt.bind (fgets lineBufSize) = some linebuf ∧ ch.desc = strdup linebuf

theorem path2entryDesc {lib lib' : MediaLib φ} {d : MediaDir φ} {me : ChannelContext φ}
    (h : path2entry lib d = some (some me,lib')) :
    ∃ linebuf, d.descTxt.bind (fgets lineBufSize) = some linebuf ∧ me.desc = strdup linebuf := by
  unfold path2entry at h
  split at h
  · cases Option.some.inj h
  · rename_i linebuf line
    split at h
    · obtain ⟨⟨tbf,mod⟩,_,h⟩ := Option.bind_eq_some_iff.mp h
      cases tbf with
      | none => cases Option.some.inj h
      | some tbf =>
        simp only at h
        split at h
        · cases Option.some.inj h
        · split at h
          · cases Option.some.inj h
          · cases Option.some.inj h
            exact ⟨linebuf,line,rfl⟩
    · cases Option.some.inj h

theorem scanOwners {lib : MediaLib φ} {dirs : List (MediaDir φ)} {r : Scanned φ} (h : scan lib dirs = some r) :
    List.Forall₂ Owns (dirs.filter valid) r.owners ∧
    r.entries.map (fun e => (e.chnid,e.desc)) = r.owners.map fun ch => (ch.chnid,ch.desc) := by
  induction dirs generalizing lib r with
  | nil =>
    cases Option.some.inj h
    exact ⟨.nil,rfl⟩
  | cons d dirs ih =>
    unfold scan at h
    obtain ⟨⟨res,mid⟩,entered,h⟩ := Option.bind_eq_some_iff.mp h
    cases path2entrySound entered with
    | rejected mod invalid unnumbered =>
      rw [List.filter_cons_of_neg (by simp [invalid])]
      exact ih h
    | numbered mod invalid empty =>
      rw [List.filter_cons_of_neg (by simp [invalid])]
      exact ih h
    | made mod me good id files pos offset fd open_ =>
      obtain ⟨tail,scanned,last⟩ := Option.bind_eq_some_iff.mp h
      cases Option.some.inj last
      obtain ⟨owned,listed⟩ := ih scanned
      have desc := path2entryDesc entered
      rw [List.filter_cons_of_pos good]
      refine ⟨.cons ⟨files,pos,offset,fd,open_,desc⟩ owned,?_⟩
      obtain ⟨linebuf,_,copied⟩ := desc
      have twice : strdup me.desc = me.desc := by rw [copied,strdup,strdup,List.takeWhile_takeWhile]; simp
      simp only [List.map_cons,twice,listed]

/- The descriptor of a directory leads to its first file. -/
def Media (content : Path → Bytes) (behind : φ → Bytes) (d : MediaDir φ) : Prop :=
  ∀ p rest fd, d.mp3 = p :: rest → d.opened = some fd → behind fd = content p

theorem ownsReady {content : Path → Bytes} {behind : φ → Bytes} {d : MediaDir φ} {ch : ChannelContext φ}
    (owns : Owns d ch) (media : Media content behind d) : Ready content behind ch := by
  refine ⟨owns.pos,owns.offset,?_⟩
  obtain ⟨fd,held⟩ := Option.ne_none_iff_exists'.mp owns.open_
  cases files : d.mp3 with
  | nil =>
    have inside := ch.inside
    rw [owns.files,files] at inside
    exact absurd inside (Nat.not_lt_zero _)
  | cons p rest =>
    have first : path ch = p := by
      simp only [path,List.get_eq_getElem]
      simp only [owns.pos,owns.files,files,List.getElem_cons_zero]
    refine ⟨fd,held,?_⟩
    rw [first]
    exact media p rest fd files (owns.fd.symm.trans held)

def station (o : ByteOrder) (content : Path → Bytes) (behind : φ → Bytes) (s : Running φ) : Station φ :=
  ⟨o,content,behind,s.scanned.entries,s.scanned.owners⟩

theorem ownerDir {dirs : List (MediaDir φ)} {owners : List (ChannelContext φ)} (owned : List.Forall₂ Owns dirs owners)
    (k : Fin owners.length) : ∃ d, dirs[k.val]? = some d ∧ Owns d (owners.get k) := by
  have below : k.val < dirs.length := by
    rw [owned.length_eq]
    exact k.isLt
  exact ⟨dirs[k.val],List.getElem?_eq_getElem below,owned.get below k.isLt⟩

structure Staffed (dirs : List (MediaDir φ)) (s : Running φ) : Prop where
  owned : List.Forall₂ Owns (dirs.filter valid) s.scanned.owners
  listed : s.scanned.entries.map (fun e => (e.chnid,e.desc)) = s.scanned.owners.map fun ch => (ch.chnid,ch.desc)
  distinct : (ids s.scanned.owners).Nodup
  channel : ∀ ch ∈ s.scanned.owners, s.scanned.lib.channel ch.chnid.toNat = some ch

theorem staffedMain {w : World φ} {opts : List (Char × String)} {s : Running φ} {dirs : List (MediaDir φ)}
    (source : MainSource w opts s) (globbed : w.globbed s.conf.mediaDir = some dirs)
    (suffice_ : IdsSuffice (UInt8.ofNat minchnid) dirs) : Staffed dirs s := by
  have called := source.scan
  rw [globbed] at called
  have ids := scanOf called
  have distinct := (distinctIds ids).mpr suffice_.distinct
  rw [ids.entries] at distinct
  obtain ⟨scanned,h,last⟩ := Option.bind_eq_some_iff.mp called
  obtain ⟨_,same⟩ := Prod.mk.inj (Option.some.inj last)
  obtain ⟨owned,listed⟩ := scanOwners h
  rw [same] at owned listed
  refine ⟨owned,listed,distinct,fun ch member => ?_⟩
  rw [ids.channel]
  exact copiedOwn _ distinct member

theorem staffedReady {dirs : List (MediaDir φ)} {s : Running φ} (staffed : Staffed dirs s) {content : Path → Bytes}
    {behind : φ → Bytes} (media : ∀ d ∈ dirs, Media content behind d) (o : ByteOrder) :
    ∀ k, Ready content behind (owner (station o content behind s) k) := by
  intro k
  obtain ⟨d,there,owns⟩ := ownerDir staffed.owned k
  exact ownsReady owns (media d (List.mem_filter.mp (List.mem_of_getElem? there)).1)

theorem staffedAlone {dirs : List (MediaDir φ)} {s : Running φ} (staffed : Staffed dirs s) {j k : Fin s.scanned.owners.length}
    (same : (s.scanned.owners.get j).chnid = (s.scanned.owners.get k).chnid) : j = k := by
  have at_ : ∀ i : Fin s.scanned.owners.length, (ids s.scanned.owners)[i.val]? = some (s.scanned.owners.get i).chnid := by
    intro i
    simp [ids]
  apply Fin.ext
  refine (List.getElem?_inj ?_ staffed.distinct).mp (by rw [at_ j,at_ k,same])
  rw [ids,List.length_map]
  exact j.isLt

/- From the media directory to the network. The list on the wire names, to a client of
either byte order, the channels whose threads run and no other. Each of them is one valid
directory, in the order of glob, and what goes out under its number is that directory's
files, in order and over again. -/
theorem announcedOnAir {w : World φ} {opts : List (Char × String)} {s : Running φ} {dirs : List (MediaDir φ)}
    (ran : main w opts = .ok s) (globbed : w.globbed s.conf.mediaDir = some dirs)
    (suffice_ : IdsSuffice (UInt8.ofNat minchnid) dirs) {o : ByteOrder} {content : Path → Bytes} {behind : φ → Bytes}
    (media : ∀ d ∈ dirs, Media content behind d) (fits : totalsize s.scanned.entries ≤ msgListMax)
    {es : List (Sigma (Label (station o content behind s)))} {t : Wire (station o content behind s)}
    (run : exec (serverNext (station o content behind s)) (start (station o content behind s)) es = some t) :
    (∀ d ∈ ofMachine none t.log, ∀ client heap, ∃ visits,
      walk client (Socket.deliver heap d) d.length (s.scanned.entries.length + 1) listEntryOffset = some (visits,d.length) ∧
      visits.map (fun v => (v.chnid,v.desc)) = s.scanned.owners.map fun ch => (ch.chnid,ch.desc)) ∧
    ∀ k : Fin s.scanned.owners.length,
      s.scanned.lib.channel (s.scanned.owners.get k).chnid.toNat = some (s.scanned.owners.get k) ∧
      (∀ j, (s.scanned.owners.get j).chnid = (s.scanned.owners.get k).chnid → j = k) ∧
      (∀ i d, (ofMachine (some k) t.log)[i]? = some d →
        readSeq o d = UInt32.ofNat i ∧ readChnid d = (s.scanned.owners.get k).chnid) ∧
      ∃ dir, (dirs.filter valid)[k.val]? = some dir ∧ (s.scanned.owners.get k).mp3glob = dir.mp3 ∧
        ∀ n, ∃ laps, (payloads ((ofMachine (some k) t.log).take n)).flatten <+:
          (List.replicate laps (blocks content dir.mp3).flatten).flatten := by
  have staffed := staffedMain (mainSound ran) globbed suffice_
  constructor
  · intro d member client heap
    have octets := listSent run d member
    rw [listOctetsEncoded] at octets
    subst octets
    exact ⟨_,walkDelivered client fits heap,(visitsEntries _ _).trans staffed.listed⟩
  · intro k
    refine ⟨staffed.channel _ (List.get_mem _ k),fun j same => staffedAlone staffed same,?_,?_⟩
    · intro i d there
      obtain ⟨data,rfl,_⟩ := wireNumbered run there
      obtain ⟨seq,id,_⟩ := readMsgChannel o (UInt32.ofNat i) (s.scanned.owners.get k).chnid data
      exact ⟨seq,id⟩
    · obtain ⟨dir,there,owns⟩ := ownerDir staffed.owned k
      refine ⟨dir,there,owns.files,fun n => ?_⟩
      have onWire := wirePrefix (staffedReady staffed media o) run k n
      rw [← owns.files]
      exact onWire

/- One directory with two files and one without a description; -P gives another port. -/
def discDir : MediaDir Path := ⟨some [74,10],true,⟨true,true,true⟩,[[1],[3]],some [1]⟩
def plainDir : MediaDir Path := ⟨none,true,⟨true,true,true⟩,[[3]],some [3]⟩

def sampleWorld : World Path where
  fork := .parent
  socket := true
  multicastIf := true
  globbed _ := some [plainDir,discDir]
  listCreated := true
  created _ := 0

theorem sampleMedia : ∀ d ∈ [plainDir,discDir], Media sampleContent sampleContent d := by
  intro d member p rest fd files opened
  rcases List.mem_cons.mp member with rfl | later
  · cases files
    cases opened
    rfl
  · obtain rfl := List.mem_singleton.mp later
    cases files
    cases opened
    rfl

theorem sampleOnAir : ∃ s, main sampleWorld [] = .ok s ∧ ∃ t,
    exec (serverNext (station .little sampleContent sampleContent s)) (start _) [⟨none,true⟩] = some t ∧
    ofMachine none t.log = [[0,1,0,6,74,10,0]] ∧
    ∀ d ∈ ofMachine none t.log, ∀ client heap, ∃ visits, walk client (Socket.deliver heap d) d.length 2 1 = some (visits,d.length) ∧
      visits.map (fun v => (v.chnid,v.desc)) = [(1,[74,10])] := by
  refine ⟨_,rfl,_,rfl,by decide +kernel,?_⟩
  exact (@announcedOnAir _ sampleWorld [] _ [plainDir,discDir] rfl rfl ⟨by decide,by decide⟩ .little sampleContent sampleContent
    sampleMedia (by decide) [⟨none,true⟩] _ rfl).1

end IPv4Media.StartUp
