import Xv6.Fs.Custody

/-! What every program of a system call takes into its ledger and what it drops
again, on every path, while other calls go on between its operations. -/
namespace Xv6.Fs.Custody
open Lib Lib.Count Lib.Threads Function
open Blocks (Quiet refs)

variable {α β : Type} {p : ProcId} {ledger : Ledger} {ip dp : Slot} {f : FileId}
variable {attr : Attr} {major minor type : BitVec 16} {n omode : BitVec 32} {s : Blocks.State} {copied parent : Bool}
  {fd : Fin nofile} {device : Int} {reads : List (BitVec 32 × BitVec 32 × Bool)} {fds : List (Fin nofile)}
  {name old path : List Byte} {count inum off turns : Nat} {good : Nat → Bool} {src : Nat → Option Byte}
  {file : Option FileId} {page : Option PipeId} {child proc : Proc} {change : Proc → Proc} {np : ProcId}
  {shares : Shares} {program : Sys α} {post : α → Ledger → Prop}

abbrev Does (p : ProcId) (program : Sys α) (post : α → Ledger → Prop) (ledger : Ledger) : Prop :=
  Safe Blocks.exec Balanced p program post ledger

abbrev Moves (p : ProcId) (program : Sys α) (ledger : Ledger) (after : α → Ledger) : Prop :=
  Does p program (fun value now => now = after value) ledger

theorem Moves.then {next : α → Sys β} {after : α → Ledger} {post : β → Ledger → Prop}
    (first : Moves p program ledger after) (rest : ∀ value, Does p (next value) post (after value)) :
    Does p (program >>= next) post ledger :=
  Safe.bind first fun value _ same => same ▸ rest value

def plus (ledger : Ledger) (item : Item) : Ledger := { ledger with owns := ledger.owns + one item }

theorem plus_comm (ledger : Ledger) (first second : Item) :
    plus (plus ledger first) second = plus (plus ledger second) first := by
  simp only [plus,add_right_comm]

def got (ledger : Ledger) : Option Slot → Ledger
  | none => ledger
  | some ip => plus ledger (.slot ip)

/-! The operations. -/

theorem halt_does {why : Stop} : Does p (halt why) post ledger :=
  fun _ _ reply => reply.elim

theorem quiet_moves {op : Call β} (quiet : ∀ s, Lib.Gives (fun _ => True) (Blocks.exec op s) fun r => Quiet s r.2) :
    Moves p (Prog.perform op) ledger (fun _ => ledger) := by
  refine Safe.perform fun shares s reply s' now owned ran => ⟨ledger,?_,rfl⟩
  obtain ⟨handles,counted⟩ := (quiet s).of_ok ran
  refine now.step owned (by rw [handles]) rfl rfl fun others counts => ?_
  rw [counted,handles]
  exact counts

theorem done_gives {result : Except Stop Blocks.State} (leaves : Quiet.Leaves s result) :
    Lib.Gives (fun _ => True) (Blocks.done result) fun r => Quiet s r.2 := by
  cases result with
  | ok s' => exact leaves
  | error e => trivial

theorem ilock_moves : Moves p (ilock ip) ledger (fun _ => ledger) := quiet_moves fun s => done_gives (Quiet.ilock s ip)

theorem iunlock_moves : Moves p (iunlock ip) ledger (fun _ => ledger) := quiet_moves fun s => done_gives (Quiet.iunlock s ip)

theorem itrunc_moves : Moves p (itrunc ip) ledger (fun _ => ledger) := quiet_moves fun s => done_gives (Quiet.itrunc s ip)

theorem inumOf_moves : Moves p (inumOf ip) ledger (fun _ => ledger) := quiet_moves fun s => Quiet.refl s

theorem attrOf_moves : Moves p (attrOf ip) ledger (fun _ => ledger) := quiet_moves fun s => Quiet.refl s

theorem sizeOf_moves : Moves p (sizeOf ip) ledger (fun _ => ledger) := quiet_moves fun s => Quiet.refl s

theorem readDirent_moves : Moves p (readDirent ip off) ledger (fun _ => ledger) :=
  quiet_moves fun s => (Quiet.readi s ip ..).bind fun _ quiet => quiet

theorem writeDirent_moves {de : Dirent} : Moves p (writeDirent ip off de) ledger (fun _ => ledger) :=
  quiet_moves fun s => (Quiet.writei s ip ..).bind fun _ quiet => quiet

theorem readUser_moves {off : BitVec 32} : Moves p (readUser ip good off n) ledger (fun _ => ledger) :=
  quiet_moves fun s => (Quiet.readi s ip ..).bind fun _ quiet => quiet

theorem writeUser_moves {off : BitVec 32} :
    Moves p (writeUser ip src off n) ledger (fun _ => ledger) :=
  quiet_moves fun s => Quiet.writei s ip src off n

theorem store_moves : Moves p (store ip attr) ledger (fun _ => ledger) :=
  Moves.then (quiet_moves fun s => Quiet.setDin s ip _) fun _ => quiet_moves fun s => Quiet.iupdate s ip

theorem beginOp_moves : Moves p beginOp ledger (fun _ => ledger) := quiet_moves fun s => done_gives (Quiet.beginOp s)

theorem endOp_moves : Moves p endOp ledger (fun _ => ledger) := quiet_moves fun s => Quiet.endOp s

theorem bracket_does {body : Sys α} (inside : Does p body post ledger) :
    Does p (bracket body) post ledger :=
  beginOp_moves.then fun _ => Safe.bind inside fun _ _ after => endOp_moves.then fun _ => after

theorem take_balanced {s' : Blocks.State} (now : Balanced shares s) (owned : shares p = some ledger)
    (taken : Blocks.Refers s s' ip 1) : Balanced (update shares p (some (plus ledger (.slot ip)))) s' := by
  refine now.step owned (by rw [taken.handles]) rfl rfl fun others counts => ?_
  rw [taken.refs,taken.handles]
  have more := counts.slot_more ip
  rwa [add_right_comm] at more

theorem iget_moves : Moves p (iget inum) ledger (fun ip => plus ledger (.slot ip)) :=
  Safe.perform fun _ _ _ _ now owned ran => ⟨_,take_balanced now owned (Blocks.iget_refers ran),rfl⟩

theorem idup_moves : Moves p (idup ip) ledger (fun _ => plus ledger (.slot ip)) := by
  refine Safe.perform fun shares s reply s' now owned ran => ⟨_,?_,rfl⟩
  cases ran
  exact take_balanced now owned (Blocks.refers_setInode rfl)

theorem ialloc_moves : Moves p (ialloc type) ledger (got ledger) := by
  refine Safe.perform fun shares s reply s' now owned ran => ⟨_,?_,rfl⟩
  have taken := Blocks.ialloc_refers ran
  cases reply with
  | none =>
    refine now.step owned (by rw [taken.handles]) rfl rfl fun others counts => ?_
    rw [taken.refs,taken.handles]
    exact counts
  | some ip => exact take_balanced now owned taken

theorem iput_moves : Moves p (iput ip) (plus ledger (.slot ip)) (fun _ => ledger) := by
  refine Safe.perform fun shares s reply s' now owned ran => ⟨ledger,?_,rfl⟩
  obtain ⟨handles,counted⟩ : Blocks.Refers s s' ip (-1) := by
    have gives := Blocks.iput_refers s ip
    cases result : s.iput ip with
    | error e =>
      change Blocks.done (s.iput ip) = _ at ran
      rw [result] at ran
      cases ran
    | ok s1 =>
      change Blocks.done (s.iput ip) = _ at ran
      rw [result] at ran
      cases ran
      exact gives.of_ok result
  refine now.step owned (by rw [handles]) rfl rfl fun others counts => ?_
  rw [counted,handles]
  have fewer : Counts (ledger.owns + others + one (.slot ip)) (refs s) s.handles := by
    rw [add_right_comm]
    exact counts
  exact fewer.slot_less

theorem iunlockput_moves : Moves p (iunlockput ip) (plus ledger (.slot ip)) (fun _ => ledger) :=
  iunlock_moves.then fun _ => iput_moves

/-! Directories and paths. -/

theorem dirlookupFrom_moves :
    Moves p (dirlookupFrom dp name count off) ledger (fun r => got ledger (r.map Prod.fst)) := by
  induction count generalizing off with
  | zero => exact rfl
  | succ count ih =>
    refine readDirent_moves.then fun r => ?_
    cases r with
    | none => exact halt_does
    | some de =>
      dsimp only
      split_ifs
      · exact iget_moves.then fun ip => rfl
      · exact ih

theorem dirlookup_moves :
    Moves p (dirlookup dp name) ledger (fun r => got ledger (r.map Prod.fst)) := by
  refine attrOf_moves.then fun attr => ?_
  split_ifs
  · exact halt_does
  · exact sizeOf_moves.then fun size => dirlookupFrom_moves

theorem emptyFrom_moves : Moves p (emptyFrom dp count off) ledger (fun _ => ledger) := by
  induction count generalizing off with
  | zero => exact rfl
  | succ count ih =>
    refine readDirent_moves.then fun r => ?_
    cases r with
    | none => exact halt_does
    | some de =>
      dsimp only
      split_ifs
      · exact rfl
      · exact ih

theorem dirlink_moves : Moves p (dirlink dp name inum) ledger (fun _ => ledger) := by
  refine dirlookup_moves.then fun r => ?_
  cases r with
  | some found => exact iput_moves.then fun _ => rfl
  | none =>
    refine sizeOf_moves.then fun size => emptyFrom_moves.then fun off => writeDirent_moves.then fun written => ?_
    cases written <;> exact rfl

theorem isdiremptyFrom_moves : Moves p (isdiremptyFrom dp count off) ledger (fun _ => ledger) := by
  induction count generalizing off with
  | zero => exact rfl
  | succ count ih =>
    refine readDirent_moves.then fun r => ?_
    cases r with
    | none => exact halt_does
    | some de =>
      dsimp only
      split_ifs
      · exact rfl
      · exact ih

theorem namexEnd_moves :
    Moves p (namexEnd parent ip name) (plus ledger (.slot ip)) (fun r => got ledger (r.map Prod.fst)) := by
  cases parent with
  | true => exact iput_moves.then fun _ => rfl
  | false => exact rfl

theorem namexFrom_moves :
    Moves p (namexFrom parent turns ip path name) (plus ledger (.slot ip)) (fun r => got ledger (r.map Prod.fst)) := by
  induction turns generalizing ip path name with
  | zero => exact namexEnd_moves
  | succ turns ih =>
    rw [namexFrom]
    cases skipelem path with
    | none => exact namexEnd_moves
    | some parts =>
      refine ilock_moves.then fun _ => attrOf_moves.then fun attr => ?_
      split_ifs
      · exact iunlockput_moves.then fun _ => rfl
      · exact iunlock_moves.then fun _ => rfl
      · refine dirlookup_moves.then fun r => ?_
        cases r with
        | none => exact iunlockput_moves.then fun _ => rfl
        | some found =>
          change Does p _ _ (plus (plus ledger (.slot ip)) (.slot found.1))
          rw [plus_comm]
          exact iunlockput_moves.then fun _ => ih

/-! The process's own record, and the file table. -/

theorem handles_does {change : Handles → β × Handles} {post : β → Ledger → Prop}
    (step : ∀ shares s, Balanced shares s → shares p = some ledger →
      ∃ after, Balanced (update shares p (some after)) { s with handles := (change s.handles).2 } ∧
        post (change s.handles).1 after) : Does p (handles change) post ledger := by
  refine Safe.perform fun shares s reply s' now owned ran => ?_
  cases ran
  exact step shares s now owned

theorem same_balanced (now : Balanced shares s) (owned : shares p = some ledger) :
    Balanced (update shares p (some ledger)) s := by
  rw [← owned,update_eq_self]
  exact now

theorem look_moves {look : Handles → β} : Moves p (handles fun h => (look h,h)) ledger (fun _ => ledger) :=
  handles_does fun _ _ now owned => ⟨ledger,same_balanced now owned,rfl⟩

theorem own_does (look : Proc → β) : Does p (handles fun h => (look (h.proc p),h))
    (fun value now => value = look ledger.me ∧ now = ledger) ledger := by
  refine handles_does fun shares s now owned => ⟨ledger,same_balanced now owned,?_,rfl⟩
  rw [(now.shape.mine p ledger owned).1]

theorem own_then (look : Proc → β) {next : β → Sys α} (rest : Does p (next (look ledger.me)) post ledger) :
    Does p (handles (fun h => (look (h.proc p),h)) >>= next) post ledger := by
  refine Safe.bind (own_does look) fun value now same => ?_
  rw [same.1,same.2]
  exact rest

theorem namex_moves :
    Moves p (namex p path parent) ledger (fun r => got ledger (r.map Prod.fst)) := by
  unfold namex
  split_ifs
  · exact iget_moves.then fun ip => namexFrom_moves
  · exact own_then Proc.cwd (idup_moves.then fun _ => namexFrom_moves)

theorem namei_moves : Moves p (namei p path) ledger (got ledger) := by
  refine namex_moves.then fun r => ?_
  cases r <;> exact rfl

theorem nameiparent_moves :
    Moves p (nameiparent p path) ledger (fun r => got ledger (r.map Prod.fst)) := namex_moves

/-! link, unlink and create. -/

theorem linkSource_moves : Moves p (linkSource p old) ledger (got ledger) := by
  refine namei_moves.then fun r => ?_
  cases r with
  | none => exact rfl
  | some ip =>
    refine ilock_moves.then fun _ => attrOf_moves.then fun attr => ?_
    split_ifs
    · exact iunlockput_moves.then fun _ => rfl
    · exact store_moves.then fun _ => iunlock_moves.then fun _ => rfl

theorem linkBad_moves : Moves p (linkBad ip) (plus ledger (.slot ip)) (fun _ => ledger) :=
  ilock_moves.then fun _ => attrOf_moves.then fun _ => store_moves.then fun _ => iunlockput_moves.then fun _ => rfl

theorem linkPaths_moves {new : List Byte} : Moves p (linkPaths p old new) ledger (fun _ => ledger) := by
  refine linkSource_moves.then fun r => ?_
  cases r with
  | none => exact rfl
  | some ip =>
    refine nameiparent_moves.then fun r => ?_
    cases r with
    | none => exact linkBad_moves
    | some parent =>
      refine ilock_moves.then fun _ => inumOf_moves.then fun inum => dirlink_moves.then fun r => ?_
      split_ifs
      · exact iunlockput_moves.then fun _ => linkBad_moves
      · exact iunlockput_moves.then fun _ => iput_moves.then fun _ => rfl

theorem sysLink_moves {old new : Path} : Moves p (sysLink p old new) ledger (fun _ => ledger) := by
  unfold sysLink
  split
  next => exact bracket_does linkPaths_moves
  next => exact rfl

def found (ledger : Ledger) : Option (Slot × Option (Slot × Nat)) → Ledger
  | none => ledger
  | some (dp,r) => got (plus ledger (.slot dp)) (r.map Prod.fst)

theorem unlinkFind_moves : Moves p (unlinkFind p path) ledger (found ledger) := by
  refine nameiparent_moves.then fun r => ?_
  cases r with
  | none => exact rfl
  | some parent =>
    refine ilock_moves.then fun _ => ?_
    split_ifs
    · exact rfl
    · exact dirlookup_moves.then fun r => rfl

theorem isdirfull_moves : Moves p (isdirfull ip attr) ledger (fun _ => ledger) := by
  unfold isdirfull
  split_ifs
  · exact Moves.then (sizeOf_moves.then fun _ => isdiremptyFrom_moves) fun _ => rfl
  · exact rfl

theorem unlinkParent_moves : Moves p (unlinkParent dp attr) ledger (fun _ => ledger) := by
  unfold unlinkParent
  split_ifs
  · exact attrOf_moves.then fun _ => store_moves
  · exact rfl

theorem unlinkEntry_moves :
    Moves p (unlinkEntry dp ip off attr) (plus (plus ledger (.slot dp)) (.slot ip)) (fun _ => ledger) := by
  refine writeDirent_moves.then fun written => ?_
  cases written with
  | false => exact halt_does
  | true =>
    refine unlinkParent_moves.then fun _ => ?_
    rw [plus_comm]
    exact iunlockput_moves.then fun _ => store_moves.then fun _ => iunlockput_moves.then fun _ => rfl

theorem unlinkPath_moves : Moves p (unlinkPath p path) ledger (fun _ => ledger) := by
  refine unlinkFind_moves.then fun r => ?_
  match r with
  | none => exact rfl
  | some (dp,none) => exact iunlockput_moves.then fun _ => rfl
  | some (dp,some (ip,off)) =>
    refine ilock_moves.then fun _ => attrOf_moves.then fun attr => ?_
    split_ifs
    · exact halt_does
    · refine isdirfull_moves.then fun full => ?_
      cases full with
      | true => exact iunlockput_moves.then fun _ => iunlockput_moves.then fun _ => rfl
      | false => exact unlinkEntry_moves

theorem sysUnlink_moves {path : Path} : Moves p (sysUnlink p path) ledger (fun _ => ledger) := by
  cases path with
  | none => exact rfl
  | some path => exact bracket_does unlinkPath_moves

theorem createFail_moves : Moves p (createFail dp ip) (plus (plus ledger (.slot dp)) (.slot ip)) (got ledger) :=
  attrOf_moves.then fun _ => store_moves.then fun _ => iunlockput_moves.then fun _ => iunlockput_moves.then fun _ => rfl

theorem createOwn_moves : Moves p (createOwn dp ip type) ledger (fun _ => ledger) := by
  unfold createOwn
  split_ifs
  · refine inumOf_moves.then fun _ => dirlink_moves.then fun r => ?_
    split_ifs
    · exact rfl
    · exact inumOf_moves.then fun _ => dirlink_moves.then fun _ => rfl
  · exact rfl

theorem createEntry_moves :
    Moves p (createEntry dp ip name type) (plus (plus ledger (.slot dp)) (.slot ip)) (got ledger) := by
  have leave : Moves p (do iunlockput dp; pure (some ip)) (plus (plus ledger (.slot dp)) (.slot ip)) (got ledger) := by
    rw [plus_comm]
    exact iunlockput_moves.then fun _ => rfl
  refine createOwn_moves.then fun dots => ?_
  by_cases failed : dots = false
  · rw [if_pos failed]
    exact createFail_moves
  rw [if_neg failed]
  refine inumOf_moves.then fun _ => dirlink_moves.then fun r => ?_
  by_cases bad : r < 0
  · rw [if_pos bad]
    exact createFail_moves
  rw [if_neg bad]
  by_cases isDir : type = tDir
  · rw [if_pos isDir]
    exact attrOf_moves.then fun _ => store_moves.then fun _ => leave
  · rw [if_neg isDir]
    exact leave

theorem createNew_moves :
    Moves p (createNew dp name type major minor) (plus ledger (.slot dp)) (got ledger) := by
  refine ialloc_moves.then fun r => ?_
  cases r with
  | none => exact iunlockput_moves.then fun _ => rfl
  | some ip => exact ilock_moves.then fun _ => attrOf_moves.then fun _ => store_moves.then fun _ => createEntry_moves

theorem create_moves :
    Moves p (create p path type major minor) ledger (got ledger) := by
  refine nameiparent_moves.then fun r => ?_
  cases r with
  | none => exact rfl
  | some parent =>
    refine ilock_moves.then fun _ => dirlookup_moves.then fun r => ?_
    cases r with
    | none => exact createNew_moves
    | some found =>
      change Does p _ _ (plus (plus ledger (.slot parent.1)) (.slot found.1))
      rw [plus_comm]
      refine iunlockput_moves.then fun _ => ilock_moves.then fun _ => attrOf_moves.then fun attr => ?_
      split_ifs
      · exact rfl
      · exact iunlockput_moves.then fun _ => rfl

theorem openInode_moves : Moves p (openInode p path omode) ledger (got ledger) := by
  unfold openInode
  split_ifs
  · exact create_moves
  · refine namei_moves.then fun r => ?_
    cases r with
    | none => exact rfl
    | some ip =>
      refine ilock_moves.then fun _ => attrOf_moves.then fun attr => ?_
      split_ifs
      · exact iunlockput_moves.then fun _ => rfl
      · exact rfl

/-! Files. -/

theorem filealloc_moves : Moves p filealloc ledger (fun r => r.elim ledger fun f => plus ledger (.raw f)) := by
  refine handles_does fun shares s now owned => ⟨_,?_,rfl⟩
  dsimp only
  cases seen : (List.finRange nfile).find? (fun f => (s.handles.file f).ref = 0) with
  | none => exact same_balanced now owned
  | some f =>
    have free := List.find?_some seen
    simp only [decide_eq_true_eq] at free
    refine now.step owned rfl rfl rfl fun others counts => ?_
    have more := counts.filealloc free
    rwa [add_right_comm] at more

theorem filedup_moves : Moves p (filedup f) (plus ledger (.file f)) (fun _ => plus (plus ledger (.file f)) (.file f)) := by
  have dup : Does p (handles (dupFile f)) (fun r now => r = true → now = plus (plus ledger (.file f)) (.file f))
      (plus ledger (.file f)) := by
    refine handles_does fun shares s now owned => ?_
    unfold dupFile
    split_ifs
    · exact ⟨_,same_balanced now owned,nofun⟩
    · refine ⟨plus (plus ledger (.file f)) (.file f),now.step owned rfl rfl rfl fun others counts => ?_,fun _ => rfl⟩
      have mine : Counts (ledger.owns + others + one (.file f)) (refs s) s.handles := by
        rw [add_right_comm]
        exact counts
      have more := mine.filedup
      rwa [add_right_comm _ others,add_right_comm _ others] at more
  refine Safe.bind dup fun r now after => ?_
  cases r with
  | false => exact halt_does
  | true => exact after rfl

theorem pipeclose_moves {pi : PipeId} {writable : Bool} :
    Moves p (pipeclose pi writable) (plus ledger (.pipeEnd pi writable)) (fun _ => ledger) := by
  have close : Moves p (handles (closePipe pi writable)) (plus ledger (.pipeEnd pi writable)) (fun _ => ledger) := by
    refine handles_does fun shares s now owned => ⟨_,?_,rfl⟩
    refine now.step owned ?_ rfl rfl fun others counts => ?_
    · unfold closePipe
      split <;> rfl
    · have mine : Counts (ledger.owns + others + one (.pipeEnd pi writable)) (refs s) s.handles := by
        rw [add_right_comm]
        exact counts
      exact mine.closePipe.2
  refine close.then fun r => ?_
  cases r with
  | false => exact halt_does
  | true => exact rfl

def having (ledger : Ledger) (ff : File) : Ledger := { ledger with owns := ledger.owns + ff.has }

theorem releaseFile_moves {ff : File} : Moves p (releaseFile ff) (having ledger ff) (fun _ => ledger) := by
  unfold having releaseFile File.has
  cases ff.type with
  | fdNone => exact rfl
  | fdPipe => exact pipeclose_moves
  | fdInode => exact bracket_does iput_moves
  | fdDevice => exact bracket_does iput_moves

def Closed (ledger : Ledger) : Option (Option File) → Ledger → Prop
  | none, _ => True
  | some none, now => now = ledger
  | some (some ff), now => now = having ledger ff

theorem fileclose_moves {item : Item} (mine : item = .file f ∨ item = .raw f) :
    Moves p (fileclose f) (plus ledger item) (fun _ => ledger) := by
  have close : Does p (handles (closeFile f)) (Closed ledger) (plus ledger item) := by
    refine handles_does fun shares s now owned => ?_
    have procs : (closeFile f s.handles).2.proc = s.handles.proc := by
      unfold closeFile
      dsimp only
      split_ifs <;> rfl
    have swap : ∀ others, Counts ((plus ledger item).owns + others) (refs s) s.handles →
        Counts (ledger.owns + others + one item) (refs s) s.handles := by
      intro others counts
      rw [add_right_comm]
      exact counts
    cases r : (closeFile f s.handles).1 with
    | none =>
      have same : (closeFile f s.handles).2 = s.handles := by
        unfold closeFile at r ⊢
        dsimp only at r ⊢
        split_ifs at r ⊢ with low
        rfl
      refine ⟨plus ledger item,?_,trivial⟩
      rw [same]
      exact same_balanced now owned
    | some last =>
      cases last with
      | none =>
        refine ⟨ledger,now.step owned procs rfl rfl fun others counts => ?_,rfl⟩
        have closed := (swap others counts).fileclose mine
        rw [r] at closed
        exact closed
      | some ff =>
        refine ⟨having ledger ff,now.step owned procs rfl rfl fun others counts => ?_,rfl⟩
        have closed := (swap others counts).fileclose mine
        rw [r] at closed
        change Counts (ledger.owns + ff.has + others) _ _
        rw [add_right_comm]
        exact closed
  refine Safe.bind close fun r now after => ?_
  rcases r with - | - | ff
  · exact halt_does
  · exact after
  · exact after ▸ releaseFile_moves

theorem updateFile_moves {change : File → File} (same : ∀ file, (change file).ref = file.ref ∧
    (change file).type = file.type ∧ (change file).has = file.has) :
    Moves p (updateFile f change) ledger (fun _ => ledger) :=
  handles_does fun _ s now owned => ⟨ledger,now.step owned rfl rfl rfl fun _ counts =>
    counts.touch (same (s.handles.file f)).1 (same (s.handles.file f)).2.1 (same (s.handles.file f)).2.2,rfl⟩

theorem advance_moves {r : Int} : Moves p (advance f r) ledger (fun _ => ledger) := by
  unfold advance
  split_ifs
  · exact updateFile_moves fun _ => ⟨rfl,rfl,rfl⟩
  · exact rfl

theorem fileread_moves :
    Moves p (fileread f good n device) ledger (fun _ => ledger) := by
  refine look_moves.then fun file => ?_
  by_cases unreadable : file.readable = false
  · rw [if_pos unreadable]
    exact rfl
  rw [if_neg unreadable]
  cases file.type with
  | fdNone => exact halt_does
  | fdPipe => exact rfl
  | fdDevice =>
    dsimp only
    split_ifs <;> exact rfl
  | fdInode =>
    refine ilock_moves.then fun _ => look_moves.then fun file => readUser_moves.then fun _ => ?_
    exact advance_moves.then fun _ => iunlock_moves.then fun _ => rfl

theorem filewriteChunk_moves {n1 : BitVec 32} :
    Moves p (filewriteChunk f src n1) ledger (fun _ => ledger) := by
  refine look_moves.then fun file => ilock_moves.then fun _ => look_moves.then fun _ => writeUser_moves.then fun _ => ?_
  exact advance_moves.then fun _ => iunlock_moves.then fun _ => rfl

theorem filewriteFrom_moves {n i : Int} :
    Moves p (filewriteFrom f src n turns i) ledger (fun _ => ledger) := by
  induction turns generalizing i with
  | zero => exact rfl
  | succ turns ih =>
    rw [filewriteFrom]
    by_cases more : i < n
    · rw [if_pos more]
      refine Moves.then (bracket_does filewriteChunk_moves) fun r => ?_
      split_ifs
      · exact rfl
      · exact ih
    · rw [if_neg more]
      exact rfl

theorem filewrite_moves {n : Int} :
    Moves p (filewrite f src n device) ledger (fun _ => ledger) := by
  refine look_moves.then fun file => ?_
  by_cases unwritable : file.writable = false
  · rw [if_pos unwritable]
    exact rfl
  rw [if_neg unwritable]
  cases file.type with
  | fdNone => exact halt_does
  | fdPipe => exact rfl
  | fdDevice =>
    dsimp only
    split_ifs <;> exact rfl
  | fdInode => exact filewriteFrom_moves.then fun _ => rfl

theorem filestat_moves : Moves p (filestat f copied) ledger (fun _ => ledger) := by
  refine look_moves.then fun file => ?_
  by_cases opened : file.type = .fdInode ∨ file.type = .fdDevice
  · rw [if_pos opened]
    exact ilock_moves.then fun _ => iunlock_moves.then fun _ => rfl
  · rw [if_neg opened]
    exact rfl

theorem openFile_moves :
    Moves p (updateFile f (openFile ip omode attr)) (plus (plus ledger (.slot ip)) (.raw f)) (fun _ => plus ledger (.file f)) := by
  have has : ∀ file, (openFile ip omode attr file).has = one (.slot ip) := by
    intro file
    unfold openFile
    split_ifs <;> rfl
  have keeps : ∀ file, (openFile ip omode attr file).ref = file.ref := by
    intro file
    unfold openFile
    split_ifs <;> rfl
  refine handles_does fun shares s now owned => ⟨plus ledger (.file f),now.step owned rfl rfl rfl fun others counts => ?_,rfl⟩
  have mine : Counts (ledger.owns + others + one (.raw f) + (openFile ip omode attr (s.handles.file f)).has) (refs s)
      s.handles := by
    rw [has]
    convert counts using 1
    simp only [plus]
    abel
  have filled := mine.fill (keeps _)
  rwa [add_right_comm] at filled

theorem openPipe_moves {f0 f1 : FileId} :
    Moves p (handles (openPipe f0 f1 page)) (plus (plus ledger (.raw f0)) (.raw f1)) (fun r =>
      if r then plus (plus ledger (.file f0)) (.file f1) else plus (plus ledger (.raw f0)) (.raw f1)) := by
  refine handles_does fun shares s now owned => ?_
  unfold openPipe
  cases page with
  | none => exact ⟨_,same_balanced now owned,rfl⟩
  | some pi =>
    dsimp only
    by_cases taken : (s.handles.pipe pi).isSome = true
    · rw [if_pos taken]
      exact ⟨_,same_balanced now owned,rfl⟩
    · rw [if_neg taken]
      refine ⟨plus (plus ledger (.file f0)) (.file f1),now.step owned rfl rfl rfl fun others counts => ?_,rfl⟩
      have mine : Counts (ledger.owns + others + one (.raw f0) + one (.raw f1)) (refs s) s.handles := by
        convert counts using 1
        simp only [plus]
        abel
      change Counts _ (refs s) (newPipe f0 f1 pi s.handles)
      convert mine.newPipe (by simpa using taken) using 1
      simp only [plus]
      abel

theorem pipealloc_moves : Moves p (pipealloc page) ledger (fun r =>
    r.elim ledger fun files => plus (plus ledger (.file files.1)) (.file files.2)) := by
  refine filealloc_moves.then fun r => ?_
  cases r with
  | none => exact rfl
  | some f0 =>
    refine filealloc_moves.then fun r => ?_
    cases r with
    | none => exact (fileclose_moves (.inr rfl)).then fun _ => rfl
    | some f1 =>
      refine openPipe_moves.then fun r => ?_
      cases r with
      | true => exact rfl
      | false =>
        change Does p _ _ (plus (plus ledger (.raw f0)) (.raw f1))
        rw [plus_comm]
        exact (fileclose_moves (.inr rfl)).then fun _ => (fileclose_moves (.inr rfl)).then fun _ => rfl

/-! Descriptors. What a process has between its calls follows its record. -/

def Proc.withFd (proc : Proc) (fd : Fin nofile) (file : Option FileId) : Proc :=
  { proc with ofile := update proc.ofile fd file }

def withMe (ledger : Ledger) (proc : Proc) : Ledger := { ledger with me := proc }

def holding : Option FileId → Items
  | none => 0
  | some f => one (.file f)

theorem resting_withFd (used : proc.used = true) (fd : Fin nofile) (file : Option FileId) :
    resting (Proc.withFd proc fd file) + holding (proc.ofile fd) = resting proc + holding file := by
  have still : (Proc.withFd proc fd file).used = true := used
  have files : ∀ (g : FileId) (other : Option FileId), holding other (.file g) = if decide (other = some g) then 1 else 0 := by
    intro g other
    cases other with
    | none => rfl
    | some f => simp [holding,one_apply,eq_comm]
  have none : ∀ (item : Item) (other : Option FileId), (∀ g, item ≠ .file g) → holding other item = 0 := by
    intro item other out
    cases other with
    | none => rfl
    | some f => simp [holding,one_apply,out]
  funext item
  simp only [Pi.add_apply]
  cases item with
  | file g =>
    rw [files,files]
    simp only [resting,still,used,if_true]
    exact count_update (fun other => decide (other = some g)) proc.ofile fd file
  | slot ip => rw [none _ _ (by simp),none _ _ (by simp)]; rfl
  | raw g => rw [none _ _ (by simp),none _ _ (by simp)]; rfl
  | pipeEnd pi writable => rw [none _ _ (by simp),none _ _ (by simp)]; rfl

theorem resting_cwd (used : proc.used = true) (ip : Slot) :
    resting { proc with cwd := ip } + one (.slot proc.cwd) = resting proc + one (.slot ip) := by
  have still : ({ proc with cwd := ip } : Proc).used = true := used
  funext item
  simp only [Pi.add_apply,one_apply]
  cases item with
  | slot j => simp only [resting,Proc.holds,still,used,true_and,decide_eq_true_eq,Item.slot.injEq,eq_comm (a := j)]; omega
  | file g => simp [resting,still,used,opened]
  | raw g => rfl
  | pipeEnd pi writable => rfl

theorem me_moves (used : (change ledger.me).used = true) :
    Moves p (handles fun h => ((),setProc p change h)) ledger (fun _ => withMe ledger (change ledger.me)) := by
  refine handles_does fun shares s now owned => ⟨withMe ledger (change ledger.me),?_,rfl⟩
  have same := (now.shape.mine p ledger owned).1
  refine now.own owned ?_ used rfl fun others counts => counts.procs rfl rfl
  change update s.handles.proc p (change (s.handles.proc p)) = _
  rw [same]
  rfl

theorem updateFd_moves (used : ledger.me.used = true) :
    Moves p (updateFd p fd file) ledger (fun _ => withMe ledger (Proc.withFd ledger.me fd file)) := me_moves used

theorem fdalloc_does (used : ledger.me.used = true) : Does p (fdalloc p f) (fun r now =>
    match r with
    | none => now = ledger
    | some fd => ledger.me.ofile fd = none ∧ now = withMe ledger (Proc.withFd ledger.me fd (some f))) ledger := by
  refine handles_does fun shares s now owned => ?_
  have same := (now.shape.mine p ledger owned).1
  cases seen : (List.finRange nofile).find? (fun fd => (s.handles.proc p).ofile fd = none) with
  | none => exact ⟨ledger,same_balanced now owned,rfl⟩
  | some fd =>
    have free := List.find?_some seen
    simp only [decide_eq_true_eq,same] at free
    refine ⟨withMe ledger (Proc.withFd ledger.me fd (some f)),?_,free,rfl⟩
    refine now.own owned ?_ used rfl fun others counts => counts.procs rfl rfl
    change update s.handles.proc p _ = _
    rw [same]
    rfl

/-! The calls. Each starts with what its process has, and leaves it so. -/

abbrev Rests (p : ProcId) (program : Sys α) (ledger : Ledger) : Prop := Does p program (fun _ now => now.AtRest) ledger

theorem Moves.rests (moves : Moves p program ledger (fun _ => ledger)) (rests : ledger.AtRest) :
    Rests p program ledger := Safe.mono moves fun _ _ same => same ▸ rests

def withOwns (ledger : Ledger) (owns : Items) : Ledger := { ledger with owns := owns }

theorem owned_file (rests : ledger.AtRest) (used : ledger.me.used = true) (held : ledger.me.ofile fd = some f) :
    ledger = plus (withOwns ledger (resting (Proc.withFd ledger.me fd none))) (.file f) := by
  have balance := resting_withFd used fd none
  rw [held] at balance
  exact Ledger.ext rfl (rests.owns.trans balance.symm) rfl

theorem fdalloc_rests (rests : ledger.AtRest) (used : ledger.me.used = true)
    (free : ledger.me.ofile fd = none) : (plus (withMe ledger (Proc.withFd ledger.me fd (some f))) (.file f)).AtRest := by
  have balance := resting_withFd used fd (some f)
  rw [free] at balance
  refine ⟨?_,rests.alone⟩
  change ledger.owns + one (.file f) = _
  rw [rests.owns]
  exact balance.symm

theorem openTrunc_moves : Moves p (openTrunc ip omode attr) ledger (fun _ => ledger) := by
  unfold openTrunc
  split_ifs
  · exact itrunc_moves
  · exact rfl

theorem openPath_rests (rests : ledger.AtRest) (used : ledger.me.used = true) :
    Rests p (openPath p path omode) ledger := by
  refine openInode_moves.then fun r => ?_
  cases r with
  | none => exact rests
  | some ip =>
    refine attrOf_moves.then fun attr => ?_
    split_ifs
    · exact iunlockput_moves.then fun _ => rests
    refine filealloc_moves.then fun r => ?_
    cases r with
    | none => exact iunlockput_moves.then fun _ => rests
    | some f =>
      refine Safe.bind (fdalloc_does used) fun r now after => ?_
      cases r with
      | none =>
        rw [after]
        exact (fileclose_moves (.inr rfl)).then fun _ => iunlockput_moves.then fun _ => rests
      | some fd =>
        obtain ⟨free,same⟩ := after
        rw [same]
        have filled : Moves p (updateFile f (openFile ip omode attr))
            (plus (plus (withMe ledger (Proc.withFd ledger.me fd (some f))) (.slot ip)) (.raw f))
            (fun _ => plus (withMe ledger (Proc.withFd ledger.me fd (some f))) (.file f)) := openFile_moves
        exact filled.then fun _ => openTrunc_moves.then fun _ => iunlock_moves.then fun _ => fdalloc_rests rests used free

theorem sysOpen_rests {path : Path} (rests : ledger.AtRest) (used : ledger.me.used = true) :
    Rests p (sysOpen p path omode) ledger := by
  cases path with
  | none => exact rests
  | some path => exact bracket_does (openPath_rests rests used)

theorem sysDup_rests (rests : ledger.AtRest) (used : ledger.me.used = true) :
    Rests p (sysDup p fd) ledger := by
  refine own_then (fun proc => proc.ofile fd) ?_
  cases held : ledger.me.ofile fd with
  | none => exact rests
  | some f =>
    refine Safe.bind (fdalloc_does used) fun r now after => ?_
    cases r with
    | none => exact after ▸ rests
    | some new =>
      obtain ⟨free,same⟩ := after
      have mine : now = plus (withMe (withOwns ledger (resting (Proc.withFd ledger.me fd none)))
          (Proc.withFd ledger.me new (some f))) (.file f) := by
        rw [same]
        exact congrArg (withMe · (Proc.withFd ledger.me new (some f))) (owned_file rests used held)
      rw [mine]
      refine filedup_moves.then fun _ => ?_
      have after : (plus (withMe ledger (Proc.withFd ledger.me new (some f))) (.file f)).AtRest := fdalloc_rests rests used free
      rw [← same,mine] at after
      exact after

theorem sysClose_rests (rests : ledger.AtRest) (used : ledger.me.used = true) :
    Rests p (sysClose p fd) ledger := by
  refine own_then (fun proc => proc.ofile fd) ?_
  cases held : ledger.me.ofile fd with
  | none => exact rests
  | some f =>
    refine (updateFd_moves used).then fun _ => ?_
    rw [owned_file rests used held]
    have close : Moves p (fileclose f) (plus (withMe (withOwns ledger (resting (Proc.withFd ledger.me fd none)))
        (Proc.withFd ledger.me fd none)) (.file f)) _ := fileclose_moves (.inl rfl)
    exact close.then fun _ => ⟨rfl,rests.alone⟩

def entering (ledger : Ledger) : Option Slot → Ledger
  | none => ledger
  | some ip => withOwns ledger (resting { ledger.me with cwd := ip })

theorem chdirPath_moves {path : Path} (rests : ledger.AtRest) (used : ledger.me.used = true) :
    Moves p (chdirPath p path) ledger (entering ledger) := by
  unfold chdirPath
  split
  next => exact rfl
  next path =>
    refine namei_moves.then fun r => ?_
    cases r with
    | none => exact rfl
    | some ip =>
      refine ilock_moves.then fun _ => attrOf_moves.then fun attr => ?_
      split_ifs
      · exact iunlockput_moves.then fun _ => rfl
      refine iunlock_moves.then fun _ => own_then Proc.cwd ?_
      have swapped : plus ledger (.slot ip) = plus (entering ledger (some ip)) (.slot ledger.me.cwd) := by
        refine Ledger.ext rfl ?_ rfl
        change ledger.owns + _ = _
        rw [rests.owns]
        exact (resting_cwd used ip).symm
      change Does p _ _ (plus ledger (.slot ip))
      rw [swapped]
      exact iput_moves.then fun _ => rfl

theorem sysChdir_rests {path : Path} (rests : ledger.AtRest) (used : ledger.me.used = true) :
    Rests p (sysChdir p path) ledger := by
  have inside : Moves p (bracket (chdirPath p path)) ledger (entering ledger) := bracket_does (chdirPath_moves rests used)
  refine inside.then fun r => ?_
  cases r with
  | none => exact rests
  | some ip =>
    have move : Moves p (handles fun h => ((),setCwd p ip h)) (entering ledger (some ip)) _ := me_moves used
    exact move.then fun _ => ⟨rfl,rests.alone⟩

theorem closeBoth_moves {rf wf : FileId} :
    Moves p (do fileclose rf; fileclose wf; pure (-1 : Int)) (plus (plus ledger (.file rf)) (.file wf)) (fun _ => ledger) := by
  rw [plus_comm]
  exact (fileclose_moves (.inl rfl)).then fun _ => (fileclose_moves (.inl rfl)).then fun _ => rfl

theorem withFd_back (free : proc.ofile fd = none) :
    Proc.withFd (Proc.withFd proc fd file) fd none = proc := by
  unfold Proc.withFd
  rw [update_idem,← free,update_eq_self]

theorem withFd_comm {other : Fin nofile} {file' : Option FileId} (apart : fd ≠ other) :
    Proc.withFd (Proc.withFd proc fd file) other file' = Proc.withFd (Proc.withFd proc other file') fd file := by
  unfold Proc.withFd
  rw [update_comm apart]

theorem sysPipe_rests (rests : ledger.AtRest) (used : ledger.me.used = true) :
    Rests p (sysPipe p page copied) ledger := by
  refine pipealloc_moves.then fun r => ?_
  cases r with
  | none => exact rests
  | some files =>
    obtain ⟨rf,wf⟩ := files
    have both : Rests p (do fileclose rf; fileclose wf; pure (-1 : Int)) (plus (plus ledger (.file rf)) (.file wf)) :=
      Safe.mono closeBoth_moves fun _ _ same => same ▸ rests
    change Rests p _ (plus (plus ledger (.file rf)) (.file wf))
    generalize here : plus (plus ledger (.file rf)) (.file wf) = two at both
    have me : two.me = ledger.me := by rw [← here]; rfl
    have used0 : two.me.used = true := me ▸ used
    refine Safe.bind (fdalloc_does used0) fun r now after => ?_
    cases r with
    | none => exact after ▸ both
    | some fd0 =>
      obtain ⟨free0,rfl⟩ := after
      have used1 : (withMe two (Proc.withFd two.me fd0 (some rf))).me.used = true := used0
      refine Safe.bind (fdalloc_does used1) fun r now after => ?_
      cases r with
      | none =>
        rw [after]
        refine (updateFd_moves used1).then fun _ => ?_
        have restored : withMe (withMe two (Proc.withFd two.me fd0 (some rf)))
            (Proc.withFd (withMe two (Proc.withFd two.me fd0 (some rf))).me fd0 none) = two :=
          Ledger.ext (withFd_back free0) rfl rfl
        rw [restored]
        exact both
      | some fd1 =>
        obtain ⟨free1,rfl⟩ := after
        cases copied with
        | true =>
          subst here
          exact fdalloc_rests (f := wf) (fdalloc_rests (f := rf) rests used free0) used free1
        | false =>
          have apart : fd0 ≠ fd1 := by
            rintro rfl
            simp [withMe,Proc.withFd] at free1
          have free1' : two.me.ofile fd1 = none := by
            simpa [withMe,Proc.withFd,update_of_ne apart.symm] using free1
          refine Moves.then (updateFd_moves used0) fun _ => Moves.then (updateFd_moves used0) fun _ => ?_
          have restored : Proc.withFd (Proc.withFd (Proc.withFd (Proc.withFd two.me fd0 (some rf)) fd1 (some wf)) fd0 none)
              fd1 none = two.me := by
            rw [withFd_comm apart.symm,withFd_back free0,withFd_back free1']
          change Rests p _ (withMe two (Proc.withFd (Proc.withFd (Proc.withFd (Proc.withFd two.me fd0 (some rf)) fd1
            (some wf)) fd0 none) fd1 none))
          rw [restored]
          exact both

theorem kexecLoad_moves :
    Moves p (kexecLoad ip reads) ledger (fun _ => ledger) := by
  induction reads with
  | nil => exact rfl
  | cons first rest ih =>
    obtain ⟨off,n,goes⟩ := first
    refine readUser_moves.then fun _ => ?_
    cases goes with
    | true => exact ih
    | false => exact rfl

theorem kexecPath_moves :
    Moves p (kexecPath p path reads) ledger (fun _ => ledger) := by
  refine namei_moves.then fun r => ?_
  cases r with
  | none => exact rfl
  | some ip => exact ilock_moves.then fun _ => kexecLoad_moves.then fun _ => iunlockput_moves.then fun _ => rfl

theorem sysExec_moves {path : Path} {built : Bool} :
    Moves p (sysExec p path reads built) ledger (fun _ => ledger) := by
  cases path with
  | none => exact rfl
  | some path => exact Moves.then (bracket_does kexecPath_moves) fun _ => rfl

theorem createPath_moves {path : Path} :
    Moves p (createPath p path type major minor) ledger (fun _ => ledger) := by
  cases path with
  | none => exact rfl
  | some path =>
    refine create_moves.then fun r => ?_
    cases r with
    | none => exact rfl
    | some ip => exact iunlockput_moves.then fun _ => rfl

/-! fork, exit and wait. -/

def filesOf (proc : Proc) : Items
  | .file f => opened proc f
  | _ => 0

theorem filesOf_withFd (free : proc.ofile fd = none) (f : FileId) :
    filesOf (Proc.withFd proc fd (some f)) = filesOf proc + one (.file f) := by
  funext item
  cases item with
  | file g =>
    have changed := count_update (fun other => decide (other = some g)) proc.ofile fd (some f)
    rw [free] at changed
    simp only [filesOf,opened,Proc.withFd,Pi.add_apply,one_apply,Item.file.injEq]
    simp only [reduceCtorEq,decide_false,Bool.false_eq_true,if_false,Option.some.injEq,decide_eq_true_eq,
      eq_comm (a := f)] at changed
    exact changed
  | slot ip => rfl
  | raw g => rfl
  | pipeEnd pi writable => rfl

theorem resting_child (proc : Proc) (ip : Slot) :
    resting { proc with state := .live, cwd := ip } = filesOf proc + one (.slot ip) := by
  funext item
  cases item with
  | file g => simp [resting,filesOf,opened,Proc.used,one_apply]
  | slot j => simp [resting,filesOf,Proc.holds,Proc.used,one_apply,eq_comm]
  | raw g => simp [resting,filesOf,one_apply]
  | pipeEnd pi writable => simp [resting,filesOf,one_apply]

def withChild (ledger : Ledger) (np : ProcId) (child : Option Proc) : Ledger :=
  { ledger with child := update ledger.child np child }

theorem allocproc_does : Does p (allocproc np) (fun r now =>
    if r then ∃ child : Proc, child.state = .embryo ∧ (∀ fd, child.ofile fd = none) ∧ now = withChild ledger np (some child)
    else now = ledger) ledger := by
  refine handles_does fun shares s now owned => ?_
  by_cases unused : (s.handles.proc np).state = .unused
  · rw [if_pos unused]
    have idle : (s.handles.proc np).used = false := by simp [Proc.used,unused]
    have empty := now.shape.idle np (.inl unused)
    refine ⟨withChild ledger np (some { s.handles.proc np with state := .embryo }),?_,
      { s.handles.proc np with state := .embryo },rfl,empty,rfl⟩
    refine now.other owned idle (fun embryo => ?_) rfl rfl (by simp) ?_
    · rw [unused] at embryo
      cases embryo
    · rw [resting_idle (by rfl)]
      rfl
  · rw [if_neg unused]
    exact ⟨ledger,same_balanced now owned,rfl⟩

theorem child_moves {after : Ledger} (mine : ledger.child np = some child)
    (me : after.me = ledger.me)
    (children : after.child = update ledger.child np (if (change child).state = .embryo then some (change child) else none))
    (empty : (change child).state = .unused ∨ (change child).state = .zombie → ∀ fd, (change child).ofile fd = none)
    (gives : ledger.owns = after.owns + resting (change child)) :
    Moves p (handles fun h => ((),setProc np change h)) ledger (fun _ => after) := by
  refine handles_does fun shares s now owned => ⟨after,?_,rfl⟩
  obtain ⟨same,_⟩ := now.shape.child p ledger np child owned mine
  have idle := now.shape.child_idle owned mine
  have changed := now.other owned idle (fun _ => by rw [mine]; rfl) me children empty gives
  rw [← same] at changed
  exact changed

def forking (ledger : Ledger) (np : ProcId) (child : Proc) : Ledger :=
  withOwns (withChild ledger np (some child)) (ledger.owns + filesOf child)

theorem forkFiles_does (rests : ledger.AtRest)
    (used : ledger.me.used = true) (embryo : child.state = .embryo) (once : fds.Nodup)
    (free : ∀ fd ∈ fds, child.ofile fd = none) :
    Does p (forkFiles p np fds) (fun _ now => ∃ child : Proc, child.state = .embryo ∧ now = forking ledger np child)
      (forking ledger np child) := by
  induction fds generalizing child with
  | nil => exact ⟨child,embryo,rfl⟩
  | cons fd rest ih =>
    obtain ⟨fresh,once⟩ := List.nodup_cons.mp once
    rw [forkFiles]
    refine own_then (fun proc => proc.ofile fd) ?_
    change Does p (match ledger.me.ofile fd with | none => _ | some f => _) _ _
    cases held : ledger.me.ofile fd with
    | none => exact ih embryo once fun other member => free other (.tail _ member)
    | some f =>
      have mine : forking ledger np child =
          plus (withOwns (forking ledger np child) (resting (Proc.withFd ledger.me fd none) + filesOf child)) (.file f) := by
        refine Ledger.ext rfl ?_ rfl
        have file := congrArg Ledger.owns (owned_file rests used held)
        change ledger.owns + filesOf child = _
        rw [file]
        exact add_right_comm _ _ _
      have dup : Moves p (filedup f) (forking ledger np child) (fun _ => plus (forking ledger np child) (.file f)) := by
        rw [mine]
        exact filedup_moves
      have next : Moves p (updateFd np fd (some f)) (plus (forking ledger np child) (.file f))
          (fun _ => forking ledger np (Proc.withFd child fd (some f))) := by
        have still : (Proc.withFd child fd (some f)).state = .embryo := embryo
        refine child_moves (update_self ..) rfl ?_ (fun idle => ?_) ?_
        · rw [if_pos embryo]
          exact (update_idem ..).symm
        · rw [embryo] at idle
          simp at idle
        · change ledger.owns + filesOf child + one (.file f) = ledger.owns + filesOf (Proc.withFd child fd (some f)) + _
          rw [filesOf_withFd (free fd (.head _)),resting_idle (by simp [Proc.used,embryo]),add_zero,add_assoc]
      refine dup.then fun _ => next.then fun _ => ih embryo once fun other member => ?_
      have apart : other ≠ fd := by
        rintro rfl
        exact fresh member
      change update child.ofile fd (some f) other = none
      rw [update_of_ne apart]
      exact free other (.tail _ member)

theorem withChild_back (alone : ∀ d, ledger.child d = none) :
    update (withChild ledger np (some child)).child np none = ledger.child := by
  unfold withChild
  rw [update_idem,← alone np,update_eq_self]

theorem filesOf_empty (empty : ∀ fd, proc.ofile fd = none) : filesOf proc = 0 := by
  funext item
  cases item with
  | file f =>
    change opened proc f = 0
    exact count_eq_zero.mpr fun fd => by simp [empty]
  | slot ip => rfl
  | raw f => rfl
  | pipeEnd pi writable => rfl

theorem kfork_rests {memory : Bool} (rests : ledger.AtRest) (used : ledger.me.used = true) :
    Rests p (kfork p np memory) ledger := by
  refine Safe.bind allocproc_does fun r now after => ?_
  cases r with
  | false => exact (show now = ledger from after) ▸ rests
  | true =>
    obtain ⟨child,embryo,empty,rfl⟩ := after
    cases memory with
    | false =>
      have free : Moves p (freeproc np) (withChild ledger np (some child)) (fun _ => ledger) := by
        refine child_moves (update_self ..) rfl (withChild_back rests.alone).symm (fun _ => empty) ?_
        rw [resting_idle (by rfl)]
        rfl
      exact free.then fun _ => rests
    | true =>
      have first : withChild ledger np (some child) = forking ledger np child := by
        refine Ledger.ext rfl ?_ rfl
        change ledger.owns = ledger.owns + filesOf child
        rw [filesOf_empty empty,add_zero]
      rw [first]
      refine Safe.bind (forkFiles_does rests used embryo (List.nodup_finRange _) fun fd _ => empty fd)
        fun _ now ⟨child,embryo,same⟩ => ?_
      rw [same]
      refine own_then Proc.cwd (idup_moves.then fun _ => ?_)
      have begin_ : Moves p (startChild np ledger.me.cwd) (plus (forking ledger np child) (.slot ledger.me.cwd))
          (fun _ => ledger) := by
        refine child_moves (update_self ..) rfl (withChild_back rests.alone).symm (by simp) ?_
        rw [resting_child]
        exact add_assoc _ _ _
      exact begin_.then fun _ => rests

theorem exitFiles_does (rests : ledger.AtRest) (used : ledger.me.used = true) :
    Does p (exitFiles p fds) (fun _ now => now.AtRest ∧ now.me.used = true ∧
      ∀ fd, (fd ∈ fds ∨ ledger.me.ofile fd = none) → now.me.ofile fd = none) ledger := by
  induction fds generalizing ledger with
  | nil => exact ⟨rests,used,fun fd closed => closed.resolve_left (by simp)⟩
  | cons fd rest ih =>
    rw [exitFiles]
    refine own_then (fun proc => proc.ofile fd) ?_
    cases held : ledger.me.ofile fd with
    | none => grind
    | some f =>
      rw [owned_file rests used held]
      have close : Moves p (fileclose f) (plus (withOwns ledger (resting (Proc.withFd ledger.me fd none))) (.file f)) _ :=
        fileclose_moves (.inl rfl)
      refine close.then fun _ => Moves.then (updateFd_moves used) fun _ => ?_
      refine Safe.mono (ih ⟨rfl,rests.alone⟩ used) fun _ now ⟨rests',used',closed⟩ => ⟨rests',used',fun other which => closed other ?_⟩
      by_cases this : other = fd
      · right
        rw [this]
        exact update_self ..
      · rcases which with member | already
        · exact .inl ((List.mem_cons.mp member).resolve_left this)
        · right
          change update ledger.me.ofile fd none other = none
          rw [update_of_ne this]
          exact already

theorem kexit_ends (rests : ledger.AtRest) (used : ledger.me.used = true) :
    Ends Blocks.exec Balanced p (do kexit p; pure (0 : Int)) ledger := by
  unfold kexit
  split_ifs
  · exact fun _ _ reply => reply.elim
  rw [Prog.bind_assoc]
  refine Ends.bind (exitFiles_does rests used) fun _ last left => ?_
  obtain ⟨rests',used',closed⟩ := left
  have empty : ∀ fd, last.me.ofile fd = none := fun fd => closed fd (.inl (List.mem_finRange fd))
  rw [Prog.bind_assoc]
  refine Ends.bind (own_does Proc.cwd) fun ip now same => ?_
  rw [same.1,same.2,Prog.bind_assoc]
  have only : last = plus (withOwns last 0) (.slot last.me.cwd) := by
    refine Ledger.ext rfl ?_ rfl
    rw [rests'.owns]
    change resting last.me = 0 + one (.slot last.me.cwd)
    have child := resting_child last.me last.me.cwd
    rw [filesOf_empty empty] at child
    rw [← child]
    congr 1
    simp only [Proc.used,decide_eq_true_eq] at used'
    rw [← used']
  rw [only]
  refine Ends.bind (bracket_does iput_moves) fun _ now same => ?_
  rw [same]
  intro shares s reply s' holds owned ran
  cases ran
  exact .inr ⟨rfl,holds.exit owned rfl rests'.alone empty⟩

theorem kwait_moves : Moves p (kwait np) ledger (fun _ => ledger) := by
  refine handles_does fun shares s now owned => ⟨ledger,?_,rfl⟩
  by_cases gone : (s.handles.proc np).state = .zombie
  · rw [if_pos gone]
    have idle : (s.handles.proc np).used = false := by simp [Proc.used,gone]
    have other : ledger.child np = none := by
      cases there : ledger.child np with
      | none => rfl
      | some child =>
        obtain ⟨same,embryo⟩ := now.shape.child p ledger np child owned there
        rw [← same,gone] at embryo
        cases embryo
    have empty := now.shape.idle np (.inr gone)
    refine now.other owned idle (fun embryo => ?_) rfl ?_ (fun _ => empty) ?_
    · rw [gone] at embryo
      cases embryo
    · change ledger.child = update ledger.child np none
      rw [← other,update_eq_self]
    · rw [resting_idle (by rfl)]
      rfl
  · rw [if_neg gone]
    exact same_balanced now owned

theorem syscall_ends {call : Syscall} (rests : ledger.AtRest) (used : ledger.me.used = true) :
    Ends Blocks.exec Balanced p (call.program p) ledger := by
  have back : ∀ (program : Sys Int), Rests p program ledger → Ends Blocks.exec Balanced p program ledger :=
    fun program safe => Ends.of_safe safe fun _ _ rests' _ _ now owned => now.leave owned rests'
  cases call with
  | link old new => exact back _ (sysLink_moves.rests rests)
  | unlink path => exact back _ (sysUnlink_moves.rests rests)
  | «open» path omode => exact back _ (sysOpen_rests rests used)
  | mkdir path => exact back _ (Moves.rests (bracket_does createPath_moves) rests)
  | mknod path major minor => exact back _ (Moves.rests (bracket_does createPath_moves) rests)
  | chdir path => exact back _ (sysChdir_rests rests used)
  | dup fd => exact back _ (sysDup_rests rests used)
  | close fd => exact back _ (sysClose_rests rests used)
  | read fd good n device =>
    refine back _ (own_then (fun proc => proc.ofile fd) ?_)
    cases ledger.me.ofile fd with
    | none => exact rests
    | some f => exact fileread_moves.rests rests
  | write fd src n device =>
    refine back _ (own_then (fun proc => proc.ofile fd) ?_)
    cases ledger.me.ofile fd with
    | none => exact rests
    | some f => exact filewrite_moves.rests rests
  | fstat fd copied =>
    refine back _ (own_then (fun proc => proc.ofile fd) ?_)
    cases ledger.me.ofile fd with
    | none => exact rests
    | some f => exact filestat_moves.rests rests
  | pipe page copied => exact back _ (sysPipe_rests rests used)
  | exec path reads built => exact back _ (sysExec_moves.rests rests)
  | fork np memory => exact back _ (kfork_rests rests used)
  | exit => exact kexit_ends rests used
  | wait np => exact back _ (kwait_moves.rests rests)

end Xv6.Fs.Custody
