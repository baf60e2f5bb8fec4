import IPv4Media.Library.CStrings
import IPv4Media.StartUp

/-! The strings of the scan (medialib.c): the pattern mlib_getchnlist gives to glob, and
pathstr, in which path2entry puts together the name of the description and the pattern of
the music. MediaLibrary takes a directory as what these strings lead to. -/
namespace IPv4Media.ScanPaths
open Octets CStrings Playlist TimerModule MediaLibrary
open StartUp (Owns scanOwners)

def pathSize : Nat := 1024
def slashStar : Bytes := [47,42]
def slashDescTxt : Bytes := [47,100,101,115,99,46,116,120,116]
def slashStarMp3 : Bytes := [47,42,46,109,112,51]

structure Matches where
  glPathv : List Path
  some_ : glPathv ≠ []
  plain : ∀ p ∈ glPathv, (0 : UInt8) ∉ p

variable {φ : Type}

structure Answers (φ : Type) where
  fopen : Path → Option Bytes
  memory : Bool
  init : InitEnv
  glob : Path → Option Matches
  openFile : Path → Option φ

structure System (φ : Type) where
  glob : Path → Option Matches
  memory : Bool
  entry : Nat → Answers φ

/- The process has ended, or a string has left its buffer. -/
inductive Failure where
  | exited
  | overrun
  deriving DecidableEq, Repr

def checked {α : Type} : Option α → Except Failure α
  | none => .error .overrun
  | some a => .ok a

/- path2entry from the pattern on, with the line it has read and its bucket. -/
def musicEntry (a : Answers φ) (lib : MediaLib φ) (mod : Module) (linebuf : Bytes) (tbf : Nat) (pattern : Path) :
    Option (ChannelContext φ) × MediaLib φ :=
  match a.glob pattern with
  | none => (none,{ lib with mod, currId := lib.currId + 1 })
  | some mp3glob =>
    match a.openFile (mp3glob.glPathv.head mp3glob.some_) with
    | none => (none,{ lib with mod })
    | some fd =>
      let me : ChannelContext φ := ⟨lib.currId,strdup linebuf,mp3glob.glPathv,0,some fd,0,tbf,
        List.length_pos_iff.mpr mp3glob.some_⟩
      (some me,{ lib with mod, currId := lib.currId + 1 })

def path2entry (a : Answers φ) (lib : MediaLib φ) (path : Path) :
    Except Failure (Option (ChannelContext φ) × MediaLib φ) := do
  let pathstr ← checked (strcat (List.replicate pathSize 0) path)
  let pathstr ← checked (strcat pathstr slashDescTxt)
  let name ← checked (cString pathstr 0)
  match (a.fopen name).bind (fgets lineBufSize) with
  | none => .ok (none,lib)
  | some linebuf =>
    if a.memory then
      match mytbfInit lib.mod a.init tbfCps tbfBurst with
      | none => .error .exited
      | some (none,mod) => .ok (none,{ lib with mod })
      | some (some tbf,mod) => do
        let pathstr ← checked (strncpy pathstr path pathSize)
        let pathstr ← checked (strncat pathstr slashStarMp3 (pathSize - 1))
        let pattern ← checked (cString pathstr 0)
        .ok (musicEntry a lib mod linebuf tbf pattern)
    else .ok (none,lib)

def listentry (chnid : UInt8) (desc : Bytes) : MlibListentry := ⟨chnid,strdup desc,strdupNulFree desc⟩

def scan (entry : Nat → Answers φ) : Nat → MediaLib φ → List Path → Except Failure (Scanned φ)
  | _, lib, [] => .ok ⟨[],[],lib⟩
  | i, lib, path :: paths => do
    match ← path2entry (entry i) lib path with
    | (none,lib) => scan entry (i+1) lib paths
    | (some res,lib) => do
      let rest ← scan entry (i+1) (register lib res) paths
      .ok { rest with
        entries := listentry res.chnid res.desc :: rest.entries
        owners := res :: rest.owners }

def mlibGetchnlist (sys : System φ) (lib : MediaLib φ) (mediaDir : Bytes) : Except Failure (Int × Scanned φ) :=
  let cleared := { lib with channel := fun _ => none, written := [] }
  match sys.glob (snprintf pathSize (mediaDir ++ slashStar)) with
  | none => .ok (-1,⟨[],[],cleared⟩)
  | some globres =>
    if sys.memory then do
      let scanned ← scan sys.entry 0 cleared globres.glPathv
      .ok (0,scanned)
    else .error .exited

def dirAt (a : Answers φ) (path : Path) : MediaDir φ where
  descTxt := a.fopen (path ++ slashDescTxt)
  memory := a.memory
  init := a.init
  mp3 := ((a.glob (path ++ slashStarMp3)).map Matches.glPathv).getD []
  opened := (a.glob (path ++ slashStarMp3)).bind fun m => a.openFile (m.glPathv.head m.some_)

def dirsAt (entry : Nat → Answers φ) (i : Nat) (paths : List Path) : List (MediaDir φ) :=
  (paths.zipIdx i).map fun found => dirAt (entry found.2) found.1

/- The longer of the two strings has room in pathstr with its zero. -/
def Fits (path : Path) : Prop := path.length + slashDescTxt.length < pathSize
instance (path : Path) : Decidable (Fits path) := inferInstanceAs (Decidable (_ < _))

def ended {α : Type} : Option α → Except Failure α
  | none => .error .exited
  | some a => .ok a

def stopped {α β : Type} : Option α → Except Failure β
  | none => .error .exited
  | some _ => .error .overrun

theorem dirsAtNext (entry : Nat → Answers φ) (i : Nat) (path : Path) (paths : List Path) :
    dirsAt entry i (path :: paths) = dirAt (entry i) path :: dirsAt entry (i+1) paths := rfl

theorem descPlain : (0 : UInt8) ∉ slashDescTxt := by decide

theorem mp3Plain : (0 : UInt8) ∉ slashStarMp3 := by decide

theorem musicFits (a : Answers φ) (lib : MediaLib φ) (path : Path) {linebuf : Bytes} {mod : Module} {tbf : Nat}
    (line : (a.fopen (path ++ slashDescTxt)).bind (fgets lineBufSize) = some linebuf) (memory : a.memory = true)
    (made : mytbfInit lib.mod a.init tbfCps tbfBurst = some (some tbf,mod)) :
    MediaLibrary.path2entry lib (dirAt a path) = some (musicEntry a lib mod linebuf tbf (path ++ slashStarMp3)) := by
  simp only [MediaLibrary.path2entry,musicEntry,dirAt,line,memory,if_true,made,Option.bind_eq_bind,
    Option.bind_some]
  cases found : a.glob (path ++ slashStarMp3) with
  | none => rfl
  | some mp3glob =>
    obtain ⟨glPathv,some_,plain⟩ := mp3glob
    cases glPathv with
    | nil => exact absurd rfl some_
    | cons first rest =>
      cases opened : a.openFile first with
      | none => simp [opened]
      | some fd => simp [opened]

theorem entryFits (a : Answers φ) (lib : MediaLib φ) {path : Path} (plain : (0 : UInt8) ∉ path) (fits : Fits path) :
    path2entry a lib path = ended (MediaLibrary.path2entry lib (dirAt a path)) := by
  have room : path.length + slashDescTxt.length < pathSize := fits
  have shorter : slashStarMp3.length < slashDescTxt.length := by decide
  obtain ⟨one,first,holds⟩ := @strcatHolds pathSize _ _ _ (holdsZeros (by decide)) plain
    (by rw [List.length_nil]; omega)
  obtain ⟨two,second,named⟩ := strcatHolds holds descPlain (by rw [List.nil_append]; exact room)
  obtain ⟨three,third,again⟩ := strncpyHolds named.length plain (by omega)
  obtain ⟨four,fourth,pattern⟩ := @strncatHolds pathSize _ _ _ (pathSize - 1) again mp3Plain (by decide) (by omega)
  simp only [path2entry,first,second,third,fourth,holdsString named,holdsString pattern,checked,bind,Except.bind,
    List.nil_append]
  cases line : (a.fopen (path ++ slashDescTxt)).bind (fgets lineBufSize) with
  | none =>
    simp only [MediaLibrary.path2entry,dirAt,line]
    rfl
  | some linebuf =>
    cases memory : a.memory with
    | false =>
      simp only [MediaLibrary.path2entry,dirAt,line,memory,Bool.false_eq_true,if_false]
      rfl
    | true =>
      cases made : mytbfInit lib.mod a.init tbfCps tbfBurst with
      | none =>
        simp only [MediaLibrary.path2entry,dirAt,line,memory,if_true,made]
        rfl
      | some answer =>
        obtain ⟨tbf,mod⟩ := answer
        cases tbf with
        | none =>
          simp only [MediaLibrary.path2entry,dirAt,line,memory,if_true,made]
          rfl
        | some tbf =>
          rw [musicFits a lib path line memory made]
          rfl

/- A longer one is written behind pathstr before anything is opened. -/
theorem entryLong (a : Answers φ) (lib : MediaLib φ) {path : Path} (plain : (0 : UInt8) ∉ path) (long : ¬ Fits path) :
    path2entry a lib path = .error .overrun := by
  have much : pathSize ≤ path.length + slashDescTxt.length := Nat.le_of_not_lt long
  have zeros : Holds pathSize (List.replicate pathSize 0) [] := holdsZeros (by decide)
  by_cases alone : path.length < pathSize
  · obtain ⟨one,first,holds⟩ := strcatHolds zeros plain (by rw [List.length_nil]; omega)
    have second : strcat one slashDescTxt = none := strcatBehind holds (by rw [List.nil_append]; exact much)
    simp only [path2entry,first,checked,bind,Except.bind,second]
  · have first : strcat (List.replicate pathSize 0) path = none := strcatBehind zeros (by rw [List.length_nil]; omega)
    simp only [path2entry,first,checked]
    rfl

theorem scanFits (entry : Nat → Answers φ) {i : Nat} {lib : MediaLib φ} {paths : List Path}
    (plain : ∀ p ∈ paths, (0 : UInt8) ∉ p) (fits : ∀ p ∈ paths, Fits p) :
    scan entry i lib paths = ended (MediaLibrary.scan lib (dirsAt entry i paths)) := by
  induction paths generalizing i lib with
  | nil => rfl
  | cons path paths ih =>
    obtain ⟨plainHere,plainRest⟩ := List.forall_mem_cons.mp plain
    obtain ⟨fitsHere,fitsRest⟩ := List.forall_mem_cons.mp fits
    rw [scan,entryFits _ _ plainHere fitsHere,dirsAtNext,MediaLibrary.scan]
    cases MediaLibrary.path2entry lib (dirAt (entry i) path) with
    | none => rfl
    | some answer =>
      obtain ⟨res,mid⟩ := answer
      cases res with
      | none => exact ih plainRest fitsRest
      | some res =>
        simp only [ended,bind,Except.bind,Option.bind]
        rw [ih plainRest fitsRest]
        cases MediaLibrary.scan (register mid res) (dirsAt entry (i+1) paths) with
        | none => rfl
        | some rest => rfl

theorem scanLong (entry : Nat → Answers φ) {i : Nat} {lib : MediaLib φ} {front back : List Path} {path : Path}
    (plain : ∀ p ∈ front ++ path :: back, (0 : UInt8) ∉ p) (fits : ∀ p ∈ front, Fits p) (long : ¬ Fits path) :
    scan entry i lib (front ++ path :: back) = stopped (MediaLibrary.scan lib (dirsAt entry i front)) := by
  induction front generalizing i lib with
  | nil =>
    rw [List.nil_append,scan,entryLong _ _ (plain path (by simp)) long]
    rfl
  | cons p front ih =>
    obtain ⟨plainHere,plainRest⟩ := List.forall_mem_cons.mp plain
    obtain ⟨fitsHere,fitsRest⟩ := List.forall_mem_cons.mp fits
    rw [List.cons_append,scan,entryFits _ _ plainHere fitsHere,dirsAtNext,MediaLibrary.scan]
    cases MediaLibrary.path2entry lib (dirAt (entry i) p) with
    | none => rfl
    | some answer =>
      obtain ⟨res,mid⟩ := answer
      cases res with
      | none => exact ih plainRest fitsRest
      | some res =>
        simp only [ended,bind,Except.bind,Option.bind]
        rw [ih plainRest fitsRest]
        cases MediaLibrary.scan (register mid res) (dirsAt entry (i+1) front) with
        | none => rfl
        | some rest => rfl

def pattern (mediaDir : Bytes) : Path := snprintf pathSize (mediaDir ++ slashStar)

def found (sys : System φ) (mediaDir : Bytes) : List Path := ((sys.glob (pattern mediaDir)).map Matches.glPathv).getD []

def globbed (sys : System φ) (mediaDir : Bytes) : Option (List (MediaDir φ)) :=
  (sys.glob (pattern mediaDir)).map fun globres => dirsAt sys.entry 0 globres.glPathv

theorem foundPlain (sys : System φ) (mediaDir : Bytes) : ∀ p ∈ found sys mediaDir, (0 : UInt8) ∉ p := by
  unfold found
  cases sys.glob (pattern mediaDir) with
  | none => simp
  | some globres => exact globres.plain

theorem callFound {sys : System φ} {mediaDir : Bytes} (lib : MediaLib φ) (memory : sys.memory = true)
    (some_ : found sys mediaDir ≠ []) : globbed sys mediaDir = some (dirsAt sys.entry 0 (found sys mediaDir)) ∧
    mlibGetchnlist sys lib mediaDir = (scan sys.entry 0 { lib with channel := fun _ => none, written := [] }
      (found sys mediaDir)).map fun scanned => (0,scanned) := by
  unfold found at some_ ⊢
  unfold globbed mlibGetchnlist
  rw [← pattern]
  cases called : sys.glob (pattern mediaDir) with
  | none =>
    rw [called] at some_
    exact absurd rfl some_
  | some globres =>
    simp only [Option.map_some,Option.getD_some,memory,if_true,true_and]
    cases scan sys.entry 0 { lib with channel := fun _ => none, written := [] } globres.glPathv <;> rfl

theorem listFound (sys : System φ) (lib : MediaLib φ) (front : List Path) :
    MediaLibrary.mlibGetchnlist lib (some (dirsAt sys.entry 0 front)) =
      (MediaLibrary.scan { lib with channel := fun _ => none, written := [] } (dirsAt sys.entry 0 front)).map
        fun scanned => (0,scanned) := by
  simp only [MediaLibrary.mlibGetchnlist]
  cases MediaLibrary.scan { lib with channel := fun _ => none, written := [] } (dirsAt sys.entry 0 front) <;> rfl

theorem firstLong (paths : List Path) : (∀ p ∈ paths, Fits p) ∨
    ∃ front p back, paths = front ++ p :: back ∧ (∀ q ∈ front, Fits q) ∧ ¬ Fits p := by
  cases first : paths.find? fun p => !decide (Fits p) with
  | none =>
    refine .inl fun p member => ?_
    have kept := List.find?_eq_none.mp first p member
    simpa using kept
  | some p =>
    obtain ⟨long,front,back,parts,before⟩ := List.find?_eq_some_iff_append.mp first
    refine .inr ⟨front,p,back,parts,fun q member => ?_,by simpa using long⟩
    simpa using before q member

structure Plays (a : Answers φ) (path : Path) (ch : ChannelContext φ) : Prop where
  desc : ∃ text linebuf, a.fopen (path ++ slashDescTxt) = some text ∧ fgets lineBufSize text = some linebuf ∧
    ch.desc = strdup linebuf
  music : ∃ globres, a.glob (path ++ slashStarMp3) = some globres ∧ ch.mp3glob = globres.glPathv ∧
    ch.fd = a.openFile (globres.glPathv.head globres.some_)
  first : ch.pos = 0 ∧ ch.offset = 0

theorem ownsPlays {a : Answers φ} {path : Path} {ch : ChannelContext φ} (owns : Owns (dirAt a path) ch) :
    Plays a path ch := by
  obtain ⟨linebuf,line,copied⟩ := owns.desc
  obtain ⟨text,read,got⟩ := Option.bind_eq_some_iff.mp line
  refine ⟨⟨text,linebuf,read,got,copied⟩,?_,owns.pos,owns.offset⟩
  have files := owns.files
  have opened := owns.fd
  simp only [dirAt] at files opened
  cases called : a.glob (path ++ slashStarMp3) with
  | none =>
    rw [called] at opened
    exact absurd opened owns.open_
  | some globres =>
    rw [called] at files opened
    exact ⟨globres,rfl,files,opened⟩

theorem scanPlays {sys : System φ} {lib : MediaLib φ} {paths : List Path} {s : Scanned φ}
    (scanned : MediaLibrary.scan lib (dirsAt sys.entry 0 paths) = some s) :
    List.Forall₂ (fun found ch => Plays (sys.entry found.2) found.1 ch)
      (paths.zipIdx.filter fun found => valid (dirAt (sys.entry found.2) found.1)) s.owners := by
  have owned := (scanOwners scanned).1
  rw [dirsAt,List.filter_map,List.forall₂_map_left_iff] at owned
  exact owned.imp fun _ _ owns => ownsPlays owns

theorem callNone {sys : System φ} {mediaDir : Bytes} (lib : MediaLib φ) (none_ : found sys mediaDir = []) :
    mlibGetchnlist sys lib mediaDir = ended (MediaLibrary.mlibGetchnlist lib (globbed sys mediaDir)) := by
  unfold found at none_
  unfold globbed mlibGetchnlist
  rw [← pattern]
  cases called : sys.glob (pattern mediaDir) with
  | none => rfl
  | some globres =>
    rw [called] at none_
    exact absurd none_ globres.some_

theorem callPoor {sys : System φ} {mediaDir : Bytes} (lib : MediaLib φ) (poor : sys.memory = false)
    (some_ : found sys mediaDir ≠ []) : mlibGetchnlist sys lib mediaDir = .error .exited := by
  unfold found at some_
  unfold mlibGetchnlist
  rw [← pattern]
  cases called : sys.glob (pattern mediaDir) with
  | none =>
    rw [called] at some_
    exact absurd rfl some_
  | some globres => simp [poor]

theorem callFits {sys : System φ} {mediaDir : Bytes} (lib : MediaLib φ) (memory : sys.memory = true)
    (some_ : found sys mediaDir ≠ []) (fits : ∀ p ∈ found sys mediaDir, Fits p) :
    mlibGetchnlist sys lib mediaDir = ended (MediaLibrary.mlibGetchnlist lib (globbed sys mediaDir)) := by
  obtain ⟨there,call⟩ := callFound lib memory some_
  rw [call,there,listFound,scanFits sys.entry (foundPlain sys mediaDir) fits]
  cases MediaLibrary.scan { lib with channel := fun _ => none, written := [] }
    (dirsAt sys.entry 0 (found sys mediaDir)) <;> rfl

theorem callLong {sys : System φ} {mediaDir : Bytes} (lib : MediaLib φ) (memory : sys.memory = true) {front back : List Path}
    {path : Path} (parts : found sys mediaDir = front ++ path :: back) (fits : ∀ p ∈ front, Fits p) (long : ¬ Fits path) :
    mlibGetchnlist sys lib mediaDir = stopped (MediaLibrary.mlibGetchnlist lib (some (dirsAt sys.entry 0 front))) := by
  have some_ : found sys mediaDir ≠ [] := by simp [parts]
  have plain := foundPlain sys mediaDir
  obtain ⟨_,call⟩ := callFound lib memory some_
  rw [parts] at call plain
  rw [call,listFound,scanLong sys.entry plain fits long]
  cases MediaLibrary.scan { lib with channel := fun _ => none, written := [] } (dirsAt sys.entry 0 front) <;> rfl

theorem endedOk {α : Type} {answer : Option α} {a : α} : ended answer = .ok a ↔ answer = some a := by
  cases answer <;> simp [ended]

theorem endedInside {α : Type} (answer : Option α) : ended answer ≠ .error .overrun := by
  cases answer <;> simp [ended]

theorem stoppedOverrun {α β : Type} {answer : Option α} :
    (stopped answer : Except Failure β) = .error .overrun ↔ ∃ a, answer = some a := by
  cases answer <;> simp [stopped]

theorem stoppedNotOk {α β : Type} (answer : Option α) (b : β) : stopped answer ≠ .ok b := by
  cases answer <;> simp [stopped]

theorem scannedOk (sys : System φ) (lib : MediaLib φ) (mediaDir : Bytes) (r : Int × Scanned φ) :
    mlibGetchnlist sys lib mediaDir = .ok r ↔
      (∀ p ∈ found sys mediaDir, Fits p) ∧ (found sys mediaDir ≠ [] → sys.memory = true) ∧
      MediaLibrary.mlibGetchnlist lib (globbed sys mediaDir) = some r := by
  by_cases none_ : found sys mediaDir = []
  · rw [callNone lib none_,endedOk]
    simp [none_]
  · cases memory : sys.memory with
    | false =>
      rw [callPoor lib memory none_]
      simp [none_]
    | true =>
      rcases firstLong (found sys mediaDir) with fits | ⟨front,p,back,parts,fits,long⟩
      · rw [callFits lib memory none_ fits,endedOk]
        exact ⟨fun called => ⟨fits,fun _ => rfl,called⟩,fun all => all.2.2⟩
      · rw [callLong lib memory parts fits long]
        refine ⟨fun called => absurd called (stoppedNotOk _ _),fun all => ?_⟩
        exact absurd (all.1 p (by simp [parts])) long

theorem scannedOverrun (sys : System φ) (lib : MediaLib φ) (mediaDir : Bytes) :
    mlibGetchnlist sys lib mediaDir = .error .overrun ↔ sys.memory = true ∧
      ∃ front p back, found sys mediaDir = front ++ p :: back ∧ (∀ q ∈ front, Fits q) ∧ ¬ Fits p ∧
        ∃ r, MediaLibrary.mlibGetchnlist lib (some (dirsAt sys.entry 0 front)) = some r := by
  constructor
  · intro behind
    by_cases none_ : found sys mediaDir = []
    · rw [callNone lib none_] at behind
      exact absurd behind (endedInside _)
    · cases memory : sys.memory with
      | false =>
        rw [callPoor lib memory none_] at behind
        cases Except.error.inj behind
      | true =>
        rcases firstLong (found sys mediaDir) with fits | ⟨front,p,back,parts,fits,long⟩
        · rw [callFits lib memory none_ fits] at behind
          exact absurd behind (endedInside _)
        · rw [callLong lib memory parts fits long,stoppedOverrun] at behind
          exact ⟨rfl,front,p,back,parts,fits,long,behind⟩
  · rintro ⟨memory,front,p,back,parts,fits,long,reached⟩
    rw [callLong lib memory parts fits long]
    exact stoppedOverrun.mpr reached

theorem scannedPlays {sys : System φ} {lib : MediaLib φ} {mediaDir : Bytes} {s : Scanned φ}
    (called : mlibGetchnlist sys lib mediaDir = .ok (0,s)) :
    s.entries.map (fun e => (e.chnid,e.desc)) = s.owners.map (fun ch => (ch.chnid,ch.desc)) ∧
    List.Forall₂ (fun found ch => Plays (sys.entry found.2) found.1 ch)
      ((found sys mediaDir).zipIdx.filter fun found => valid (dirAt (sys.entry found.2) found.1)) s.owners := by
  obtain ⟨_,memory,list⟩ := (scannedOk sys lib mediaDir _).mp called
  by_cases none_ : found sys mediaDir = []
  · unfold found at none_
    unfold globbed at list
    cases answer : sys.glob (pattern mediaDir) with
    | none =>
      rw [answer] at list
      cases Option.some.inj list
    | some globres =>
      rw [answer] at none_
      exact absurd none_ globres.some_
  · obtain ⟨there,_⟩ := callFound lib (memory none_) none_
    rw [there,listFound] at list
    obtain ⟨scanned,ran,same⟩ := Option.map_eq_some_iff.mp list
    obtain ⟨_,rfl⟩ := Prod.mk.inj same
    exact ⟨(scanOwners ran).2,scanPlays ran⟩

/- The longest name of a directory entry. -/
def nameMax : Nat := 255

theorem scannedShort {sys : System φ} {mediaDir : Bytes} (lib : MediaLib φ)
    (short : mediaDir.length + 1 + nameMax + slashDescTxt.length < pathSize)
    (names : ∀ p ∈ found sys mediaDir, ∃ name, p = mediaDir ++ 47 :: name ∧ name.length ≤ nameMax) :
    pattern mediaDir = mediaDir ++ slashStar ∧ mlibGetchnlist sys lib mediaDir ≠ .error .overrun := by
  constructor
  · refine List.take_of_length_le ?_
    have two : slashStar.length = 2 := rfl
    have rest : nameMax = 255 := rfl
    rw [List.length_append]
    omega
  · intro behind
    obtain ⟨_,front,p,back,parts,_,long,_⟩ := (scannedOverrun sys lib mediaDir).mp behind
    obtain ⟨name,rfl,most⟩ := names p (by simp [parts])
    refine long ?_
    rw [Fits,List.length_append,List.length_cons]
    omega

def twoPaths (n : Nat) : System Nat where
  glob _ := some ⟨[[109,47,97],List.replicate n 98],List.cons_ne_nil _ _,by simp⟩
  memory := true
  entry _ := ⟨fun _ => some [74,10],true,⟨true,true,true⟩,fun _ => some ⟨[[1]],by simp,by simp⟩,fun _ => some 3⟩

example (n : Nat) (long : 1015 ≤ n) : mlibGetchnlist (twoPaths n) unscanned [109] = .error .overrun := by
  have parts : found (twoPaths n) [109] = [[109,47,97]] ++ List.replicate n 98 :: [] := rfl
  have room : ¬ Fits (List.replicate n 98) := by
    simp only [Fits,List.length_replicate,slashDescTxt,pathSize,List.length_cons,List.length_nil]
    omega
  rw [callLong unscanned rfl parts (by decide) room]
  rfl

end IPv4Media.ScanPaths
