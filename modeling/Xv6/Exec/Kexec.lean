import Xv6.Exec.Stack

/-! kexec from its call to its return: it fails and leaves everything as it was, or
the caller has the address space that the file and the arguments describe. -/
namespace Xv6.Exec
open Lib.Bytes Vm

variable {m₀ m m' : Memory} {caller : Caller} {trampolinePage pt : Frame} {sz n : Nat} {own cown : Frame → Option Place} {page : Page}
  {file : File} {argv : List (List Byte)} {path : List Byte} {log : List Event}

/-- The process that calls exec, on a machine with memory up to PHYSTOP. -/
structure Running (m : Memory) (caller : Caller) (trampolinePage : Frame) (own : Frame → Option Place) : Prop where
  resident : Resident m caller.task.proc own
  frame : caller.task.trapframe ∉ m.freelist ∧ caller.task.trapframe < 2^44
  nobody : own caller.task.trapframe = none
  text : trampolinePage < m.first -- in the kernel's text
  ram : m.last - m.first ≤ ramPages

namespace Running

theorem pages (running : Running m₀ caller trampolinePage own) : m₀.freelist.length ≤ ramPages :=
  (pool_length running.resident.owns.pool).trans running.ram

theorem code (running : Running m₀ caller trampolinePage own) :
    trampolinePage ∉ m₀.freelist ∧ trampolinePage < 2^44 ∧ own trampolinePage = none := by
  have owns := running.resident.owns
  obtain ⟨low,high,-⟩ := owns.held _ _ owns.rooted
  refine ⟨fun free => Nat.not_lt.mpr (owns.pool.range _ free).1 running.text,
    (running.text.trans_le low).trans (high.trans_le owns.pool.last),?_⟩
  cases there : own trampolinePage with
  | none => rfl
  | some place => exact absurd (owns.held _ place there).1 (Nat.not_le.mpr running.text)

end Running

def entered (frame : Page) (entry : BitVec 64) (sp : Nat) : Page :=
  set64 (set64 (set64 frame a1Index (BitVec.ofNat 64 sp)) epcIndex entry) spIndex (BitVec.ofNat 64 sp)

/-- What the caller has after it has taken over the new address space. -/
structure Committed (m₀ : Memory) (caller : Caller) (own : Frame → Option Place) (pt : Frame) (n : Nat) (entry : BitVec 64) (sp : Nat) (m' : Memory)
    (cown : Frame → Option Place) : Prop where
  resident : Resident m' ⟨pt,(n + 2) * pgsize⟩ cown
  frame : m'.page caller.task.trapframe = entered (m₀.page caller.task.trapframe) entry sp
  conserves : ∀ f, f ∈ m'.freelist ∨ cown f ≠ none ↔ f ∈ m₀.freelist ∨ own f ≠ none
  pages : ∀ f, f ∉ m₀.freelist → own f = none → f ≠ caller.task.trapframe → m'.page f = m₀.page f

theorem Stacked.commit (stacked : Stacked m₀ (trapEntries trampolinePage caller.task.trapframe) pt n m cown page)
    (running : Running m₀ caller trampolinePage own) (path : List Byte) (sp argc : Nat) (entry : BitVec 64) (log : List Event) : ∃ m',
      commit caller path pt ((n + 2) * pgsize) sp argc entry log m =
        .ok ⟨argc,⟨⟨pt,(n + 2) * pgsize,caller.task.trapframe⟩,nameOf path⟩,m',log⟩ ∧
      Committed m₀ caller own pt n entry sp m' cown ∧ ∀ v < userPages, m'.leaf pt v = m.leaf pt v := by
  have image := stacked.toImage
  obtain ⟨out,small⟩ := running.frame
  have nobody := running.nobody
  obtain ⟨codeOut,codeSmall,codeNobody⟩ := running.code
  have unchanged : ∀ f, f ∉ m₀.freelist → m.page f = m₀.page f := fun f free => image.trades.outside f free rfl
  have strange : ∀ f, f ∉ m₀.freelist → cown f = none ∧ f ∉ m.freelist := fun f free => (image.trades.stranger free rfl).symm
  obtain ⟨old,same,-⟩ := running.resident.undisturbed image.resident.owns.pool image.free unchanged image.trades.bounds
  generalize frameEq : entered (m₀.page caller.task.trapframe) entry sp = frame
  -- the trapframe belongs to neither of the two page tables
  have elsewhere : ∀ f, f ≠ caller.task.trapframe → (m.setPage caller.task.trapframe frame).page f = m.page f :=
    fun f other => Function.update_of_ne other ..
  have notFrame : ∀ {other : Frame → Option Place}, other caller.task.trapframe = none → ∀ f place, other f = some place →
      (m.setPage caller.task.trapframe frame).page f = m.page f := by
    intro other none f place there
    refine elsewhere f ?_
    rintro rfl
    rw [none] at there
    cases there
  have mine := notFrame nobody
  have fresh := notFrame (strange _ out).1
  have pool : Pool (m.setPage caller.task.trapframe frame) := ⟨old.owns.pool.first,old.owns.pool.last,old.owns.pool.range,old.owns.pool.nodup⟩
  have owns1 := old.owns.outside (fun f path there => mine f _ there) ⟨rfl,rfl⟩ pool fun f place there => old.owns.notFree there
  have entries1 : ∀ w, (m.setPage caller.task.trapframe frame).entry caller.task.pagetable w = m.entry caller.task.pagetable w :=
    fun w => entries_of_tables old.owns.tree (fun f path there => mine f _ there) old.owns.rooted rfl
  have new1 := image.resident.owned.outside (fun f path there => fresh f _ there) ⟨rfl,rfl⟩ pool
    fun f place there => image.resident.owns.notFree there
  have entries2 : ∀ w, (m.setPage caller.task.trapframe frame).entry pt w = m.entry pt w :=
    fun w => entries_of_tables image.resident.owned.tree (fun f path there => fresh f _ there) image.resident.owned.rooted rfl
  obtain ⟨m',freed,pool',trades⟩ := owns1.procFreepagetable old.sz fun w low valid => by
    rw [show caller.task.proc.pagetable = caller.task.pagetable from rfl,entries1] at valid
    exact (old.leaves w low valid).2
  have free : ∀ f, f ∈ m'.freelist ↔ f ∈ m.freelist ∨ own f ≠ none := by
    intro f
    refine Iff.trans ?_ (trades.conserves f)
    exact ⟨.inl,fun either => either.resolve_right fun owned => owned rfl⟩
  have apart : ∀ f, cown f ≠ none → own f = none := by
    intro f owned
    cases there : own f with
    | none => rfl
    | some place => exact absurd (image.fresh owned) (running.resident.owns.notFree there)
  obtain ⟨new2,entries3,pages3⟩ := new1.bystander trades apart pool'
  have entries : ∀ w, m'.entry pt w = m.entry pt w := fun w => (entries3 w).trans (entries2 w)
  have leaves : ∀ v < userPages, m'.leaf pt v = m.leaf pt v := by
    intro v below
    refine leaf_congr (entries _) fun valid => ?_
    have place := image.resident.owned.userPage below valid
    exact (pages3 _ _ place).1.trans (fresh _ _ place)
  have pages : ∀ f, f ∉ m₀.freelist → own f = none → m'.page f = (m.setPage caller.task.trapframe frame).page f :=
    fun f free nobody => trades.outside f (strange f free).2 nobody
  have resident : Resident m' ⟨pt,(n + 2) * pgsize⟩ cown := by
    refine ⟨new2.relimit (npages_top (image.resident.sz.trans (by decide))) fun v range => ?_,image.resident.sz,fun w trap => ?_,
      fun w low valid => ?_⟩
    · grind [image.resident.sz,image.resident.empty,npages_user]
    · rw [entries]
      obtain ⟨valid,user,none,-⟩ := image.resident.traps w trap
      refine ⟨valid,user,none,?_⟩
      rw [free,not_or,not_not]
      have apart : trampoline / pgsize ≠ trapframe / pgsize := by decide
      rcases trap with rfl | rfl
      · rw [show m.entry pt trapframe = _ from image.beyond trapframe (by decide) (by decide),trapEntries,if_pos rfl,
          pte2pa_pa2pte small (by decide)]
        exact ⟨(strange _ out).2,nobody⟩
      · rw [show m.entry pt trampoline = _ from image.beyond trampoline (by decide) (by decide),trapEntries,if_neg apart,if_pos rfl,
          pte2pa_pa2pte codeSmall (by decide)]
        exact ⟨(strange _ codeOut).2,codeNobody⟩
    · rw [entries] at valid ⊢
      exact image.resident.leaves w low valid
  refine ⟨m',?_,⟨resident,?_,fun f => ?_,fun f free nobody other => ?_⟩,leaves⟩
  · unfold Exec.commit
    dsimp only
    rw [unchanged _ out,show set64 (set64 (set64 (m₀.page caller.task.trapframe) a1Index (BitVec.ofNat 64 sp)) epcIndex entry) spIndex
      (BitVec.ofNat 64 sp) = frame from frameEq]
    rw [show (m.setPage caller.task.trapframe frame).procFreepagetable caller.task.pagetable caller.task.sz = .ok m' from freed]
    rfl
  · rw [pages _ out nobody,frameEq]
    exact Function.update_self ..
  · rw [free f,or_right_comm,image.trades.conserves f]
    exact or_congr_left ⟨fun either => either.resolve_right fun owned => owned rfl,.inl⟩
  · rw [pages f free nobody,elsewhere f other,unchanged f free]

/-! From the stack on. -/

def stackPointer (n : Nat) (argv : List (List Byte)) : Nat := (n + 2) * pgsize - used argv - up16 ((argv.length + 1) * 8)

def withStack (n : Nat) (argv : List (List Byte)) (leaves : Nat → Option (Pte × Page)) (v : Nat) : Option (Pte × Page) :=
  if v = n then some (guard,fun _ => 0)
  else if v = n + 1 then some ((blank pteW).1,stackPage ((n + 1) * pgsize) argv fun _ => 0)
  else leaves v

/-- The new program of the caller. -/
structure Enters (m₀ : Memory) (caller : Caller) (own : Frame → Option Place) (path : List Byte) (argv : List (List Byte)) (entry : BitVec 64)
    (n : Nat) (leaves : Nat → Option (Pte × Page)) (outcome : Outcome) (pt : Frame) (cown : Frame → Option Place) : Prop where
  r : outcome.r = argv.length
  process : outcome.caller = ⟨⟨pt,(n + 2) * pgsize,caller.task.trapframe⟩,nameOf path⟩
  fits : Fits argv
  committed : Committed m₀ caller own pt n entry (stackPointer n argv) outcome.memory cown
  leaves : ∀ v < userPages, outcome.memory.leaf pt v = withStack n argv leaves v

structure Fails (m₀ : Memory) (caller : Caller) (outcome : Outcome) : Prop where
  r : outcome.r = -1
  process : outcome.caller = caller
  restored : Restored m₀ outcome.memory

theorem Image.fails {traps : Nat → Pte} (image : Image m₀ traps pt sz m cown) (caller : Caller) (ip : Bool) (log : List Event) : ∃ outcome,
    Exec.giveUp caller pt sz ip log m = .ok outcome ∧ Fails m₀ caller outcome ∧
      outcome.log = if ip then log ++ [.iunlockput,.endOp] else log := by
  obtain ⟨m',gave,restored⟩ := image.giveUp caller ip log
  exact ⟨_,gave,⟨rfl,rfl,restored⟩,rfl⟩

theorem Loading.enter (loading : Loading m₀ (trapEntries trampolinePage caller.task.trapframe) pt sz m cown)
    (running : Running m₀ caller trampolinePage own) (admitted : Admitted argv) (path : List Byte) (entry : BitVec 64) (log : List Event) :
    ∃ outcome, enter caller path argv pt sz entry log m = .ok outcome ∧ outcome.log = log ∧
      (Fails m₀ caller outcome ∨ ∃ cown', Enters m₀ caller own path argv entry (npages sz) (m.leaf pt) outcome pt cown') ∧
      ∀ sz1 m1, Exec.makeStack m pt (pgroundup sz) = .ok (some sz1,m1) → (outcome.r = -1 ↔ ¬Fits argv) := by
  have ram := running.pages
  obtain ⟨rounded,loading'⟩ := loading.roundUp ram
  obtain ⟨r,m1,cown1,made,fails,makes⟩ := loading'.makeStack ram
  unfold Exec.enter
  rw [rounded,made]
  cases r with
  | none =>
    obtain ⟨outcome,gave,failed,logged⟩ := (fails rfl).fails caller false log
    exact ⟨outcome,gave,logged,.inl failed,nofun⟩
  | some sz1 =>
    obtain ⟨rfl,stacked,leaves1⟩ := makes sz1 rfl
    obtain ⟨r,m2,page,pushed,pushes,refuses,fits⟩ := pushArguments_pushes caller.task.proc stacked admitted
    dsimp only
    rw [pushed]
    cases r with
    | none =>
      obtain ⟨outcome,gave,failed,logged⟩ := pushes.stacked.toImage.fails caller false log
      exact ⟨outcome,gave,logged,.inl failed,fun _ _ _ => ⟨fun _ => refuses.mp rfl,fun _ => failed.r⟩⟩
    | some top =>
      obtain ⟨sp,argc⟩ := top
      obtain ⟨rfl,rfl,rfl⟩ := fits sp argc rfl
      have fit : Fits argv := by
        by_contra not
        cases refuses.mpr not
      obtain ⟨m3,committed,commits,leaves3⟩ := pushes.stacked.commit running path (stackPointer (npages sz) argv) argv.length entry log
      refine ⟨_,committed,rfl,.inr ⟨cown1,rfl,rfl,fit,commits,fun v below => ?_⟩,fun _ _ _ => ⟨nofun,fun not => absurd fit not⟩⟩
      dsimp only
      rw [leaves3 v below,withStack]
      by_cases stack : v = npages sz + 1
      · rw [stack,if_neg (by omega),if_pos rfl]
        exact pushes.stacked.stack
      · rw [pushes.leaves v below stack,leaves1 v below,if_neg stack,if_neg stack]

/-! kexec. -/

def program (file : File) (elf : Elfhdr) : Nat × (Nat → Option (Pte × Page)) :=
  assemble file (headers file elf.phnum.toNat (elf.phoff.setWidth 32)) 0 fun _ => none

/-- All of kexec has succeeded. -/
structure Succeeds (m₀ : Memory) (caller : Caller) (own : Frame → Option Place) (path : List Byte) (file : File) (argv : List (List Byte))
    (elf : Elfhdr) (outcome : Outcome) (pt : Frame) (cown : Frame → Option Place) : Prop where
  header : header file = some elf
  table : elf.phnum.toNat = 0 ∨ (elf.phoff.setWidth 32).toNat + elf.phnum.toNat * proghdrSize ≤ file.length
  sound : ∀ ph ∈ headers file elf.phnum.toNat (elf.phoff.setWidth 32), ph.type = progLoad → Sound file ph
  enters : Enters m₀ caller own path argv elf.entry (npages (program file elf).1) (program file elf).2 outcome pt cown

/-- The kexec of a file, up to the pushing of the arguments. -/
structure Reaches (m₀ : Memory) (caller : Caller) (trampolinePage : Frame) (file : File) (elf : Elfhdr) (pt : Frame) (sz : Nat) (m : Memory) :
    Prop where
  header : header file = some elf
  real : pt ≠ 0
  loads : ∃ m1 sz2 m2, m₀.procPagetable trampolinePage caller.task.trapframe = .ok (pt,m1) ∧
    loadSegments pt file elf.phnum.toNat (elf.phoff.setWidth 32) 0 m1 = .ok (true,sz2,m2) ∧ makeStack m2 pt (pgroundup sz2) = .ok (some sz,m)

theorem Enters.congr {entry : BitVec 64} {leaves leaves' : Nat → Option (Pte × Page)} {outcome : Outcome}
    (enters : Enters m₀ caller own path argv entry n leaves outcome pt cown) (same : ∀ v < userPages, leaves v = leaves' v) :
    Enters m₀ caller own path argv entry n leaves' outcome pt cown :=
  { enters with leaves := fun v below => by rw [enters.leaves v below,withStack,withStack,same v below] }

theorem Restored.refl (pool : Pool m) : Restored m m := ⟨pool,fun _ => Iff.rfl,fun _ _ => rfl,rfl,rfl⟩

theorem Running.start {m1 : Memory} (running : Running m₀ caller trampolinePage own)
    (made : m₀.procPagetable trampolinePage caller.task.trapframe = .ok (pt,m1)) (real : pt ≠ 0) :
    ∃ cown, Loading m₀ (trapEntries trampolinePage caller.task.trapframe) pt 0 m1 cown := by
  obtain ⟨out,small,-⟩ := running.code
  have pool := running.resident.owns.pool
  obtain ⟨cown,resident,trades,entries⟩ := Resident.born pool made real ⟨out,small⟩ running.frame
  have image : Image m₀ (trapEntries trampolinePage caller.task.trapframe) pt 0 m1 cown := ⟨resident,trades,fun w low _ => entries w low⟩
  refine ⟨cown,image,fun v inside => absurd inside (Nat.not_lt_zero v),?_⟩
  rw [show npages 0 = 0 by decide,Nat.zero_add]
  exact (List.subperm_of_subset resident.owns.pool.nodup image.free).length_le

def bracket (found : Option File) : List Event :=
  if found.isSome then [.beginOp,.namei,.ilock,.iunlockput,.endOp] else [.beginOp,.namei,.endOp]

theorem load_runs {elf : Elfhdr} (running : Running m₀ caller trampolinePage own) (admitted : Admitted argv) (path : List Byte)
    (short : file.length < 2^32) (parsed : header file = some elf) :
    ∃ outcome, load caller trampolinePage path argv file elf [.beginOp,.namei,.ilock] m₀ = .ok outcome ∧
      outcome.log = [.beginOp,.namei,.ilock,.iunlockput,.endOp] ∧
      (Fails m₀ caller outcome ∨ ∃ pt cown, Succeeds m₀ caller own path file argv elf outcome pt cown) ∧
      ∀ pt sz m, Reaches m₀ caller trampolinePage file elf pt sz m → (outcome.r = -1 ↔ ¬Fits argv) := by
  have pool := running.resident.owns.pool
  obtain ⟨pt,m1,cown,made,pool1,trades,none,-⟩ := procPagetable_spec pool trampolinePage caller.task.trapframe
  unfold load
  rw [made]
  dsimp only
  by_cases failed : pt = 0
  · rw [if_pos failed]
    rw [none failed] at trades
    refine ⟨⟨-1,caller,m1,_⟩,rfl,rfl,.inl ⟨rfl,rfl,trades.restored pool1⟩,fun pt' sz m reaches => ?_⟩
    obtain ⟨m1',sz2,m2,made',-⟩ := reaches.loads
    rw [made] at made'
    cases made'
    exact absurd failed reaches.real
  rw [if_neg failed]
  obtain ⟨cown,loading⟩ := running.start made failed
  obtain ⟨ok,sz2,m2,cown2,ran,image,loads⟩ := loading.loadSegments running.pages short elf.phnum.toNat (elf.phoff.setWidth 32)
  rw [ran]
  cases ok with
  | false =>
    obtain ⟨outcome,gave,fails,log⟩ := image.fails caller true [.beginOp,.namei,.ilock]
    refine ⟨outcome,gave,log,.inl fails,fun pt' sz m reaches => ?_⟩
    obtain ⟨m1',sz2',m2',made',ran',-⟩ := reaches.loads
    rw [made] at made'
    cases made'
    rw [ran] at ran'
    cases ran'
  | true =>
    obtain ⟨loading2,loaded⟩ := loads rfl
    obtain ⟨outcome,entered,log,result,exactly⟩ := loading2.enter running admitted path elf.entry [.beginOp,.namei,.ilock,.iunlockput,.endOp]
    refine ⟨outcome,entered,log,result.imp id ?_,fun pt' sz m reaches => ?_⟩
    · rintro ⟨cown',enters⟩
      have start : npages 0 = 0 := by decide
      have empty : ∀ v < userPages, m1.leaf pt v = Option.none :=
        fun v below => loading.resident.empty (show npages 0 ≤ v by rw [start]; exact Nat.zero_le v) below
      have same := assemble_congr file (headers file elf.phnum.toNat (elf.phoff.setWidth 32)) 0 empty
      have size : sz2 = (program file elf).1 := loaded.size.trans same.1
      refine ⟨pt,cown',parsed,loaded.table,loaded.sound,?_⟩
      rw [← size]
      exact enters.congr fun v below => (loaded.leaves v below).trans (same.2 v below)
    · obtain ⟨m1',sz2',m2',made',ran',stack⟩ := reaches.loads
      rw [made] at made'
      cases made'
      rw [ran] at ran'
      cases ran'
      exact exactly _ _ stack

theorem kexec_runs (running : Running m₀ caller trampolinePage own) (admitted : Admitted argv) (path : List Byte) (found : Option File)
    (short : ∀ file, found = some file → file.length < 2^32) :
    ∃ outcome, kexec m₀ caller trampolinePage path found argv = .ok outcome ∧ outcome.log = bracket found ∧
      (Fails m₀ caller outcome ∨ ∃ file elf pt cown, found = some file ∧ Succeeds m₀ caller own path file argv elf outcome pt cown) ∧
      ∀ file elf pt sz m, found = some file → Reaches m₀ caller trampolinePage file elf pt sz m → (outcome.r = -1 ↔ ¬Fits argv) := by
  have pool := running.resident.owns.pool
  unfold kexec
  cases found with
  | none => exact ⟨_,rfl,rfl,.inl ⟨rfl,rfl,Restored.refl pool⟩,nofun⟩
  | some file =>
    dsimp only
    cases parsed : header file with
    | none =>
      refine ⟨⟨-1,caller,m₀,_⟩,rfl,rfl,.inl ⟨rfl,rfl,Restored.refl pool⟩,fun file' elf pt sz m same reaches => ?_⟩
      cases same
      have other := reaches.header
      rw [parsed] at other
      cases other
    | some elf =>
      obtain ⟨outcome,ran,log,result,exactly⟩ := load_runs running admitted path (short file rfl) parsed
      refine ⟨outcome,ran,log,result.imp id ?_,fun file' elf' pt sz m same reaches => ?_⟩
      · rintro ⟨pt,cown,succeeds⟩
        exact ⟨file,elf,pt,cown,rfl,succeeds⟩
      · cases same
        have other := reaches.header
        rw [parsed] at other
        cases other
        exact exactly pt sz m reaches

def ample : Memory := ⟨fun _ _ => 0,[2,3,4,5,6,7,8,9,10,11,12,13,14,15,16,17],1,18⟩

def shell : Caller := ⟨⟨2,0,1⟩,[]⟩

def littleEndian (width n : Nat) : List Byte := (List.range width).map fun k => BitVec.ofNat 8 (n / 256^k)

def elfFile (phoff : Nat) (phs : List (List Byte)) (data : List Byte) : File :=
  littleEndian 24 0x464C457F ++ littleEndian 8 0 ++ littleEndian 8 phoff ++ littleEndian 16 0 ++ littleEndian 8 phs.length ++ phs.flatten ++ data

def programHeader (type flags off vaddr filesz memsz : Nat) : List Byte :=
  littleEndian 4 type ++ littleEndian 4 flags ++ littleEndian 8 off ++ littleEndian 16 vaddr ++ littleEndian 8 filesz ++ littleEndian 16 memsz

theorem toOption_eq_some {α : Type} {result : Except Panic α} {value : α} (found : result.toOption = some value) : result = .ok value := by
  cases result with
  | error e => cases found
  | ok a => exact congrArg Except.ok (Option.some.inj found)

theorem admitted_none : Admitted [] := ⟨by decide,nofun,nofun⟩

theorem ample_running : ∃ m own, ample.procPagetable 0 1 = .ok (2,m) ∧ Running m shell 0 own := by
  have ran : ((ample.procPagetable 0 1).toOption.any fun made => decide (made.1 = 2)) = true := by decide +kernel
  obtain ⟨⟨pagetable,m⟩,made,two⟩ := (Option.any_eq_true _ _).mp ran
  cases of_decide_eq_true two
  have made' := toOption_eq_some made
  obtain ⟨own,resident,trades,-⟩ := Resident.born ⟨by decide,by decide,by decide,by decide⟩ made' (by decide) ⟨by decide,by decide⟩
    ⟨by decide,by decide⟩
  obtain ⟨out,nobody⟩ := trades.stranger (show 1 ∉ ample.freelist by decide) rfl
  refine ⟨m,own,made',resident,⟨out,by decide⟩,nobody,?_,?_⟩
  · rw [trades.bounds.1]
    decide
  · rw [trades.bounds.1,trades.bounds.2]
    decide

def loadsSample (file : File) : Bool :=
  (ample.procPagetable 0 1).toOption.any fun first => (header file).any fun elf =>
    (first.2.procPagetable 0 1).toOption.any fun second => decide (second.1 ≠ 0) &&
      (loadSegments second.1 file elf.phnum.toNat (elf.phoff.setWidth 32) 0 second.2).toOption.any fun loaded => loaded.1 &&
        (makeStack loaded.2.2 second.1 (pgroundup loaded.2.1)).toOption.any fun stack => stack.1.isSome

theorem sample_reaches (loads : loadsSample file = true) : ∃ m own elf pt sz m1, Running m shell 0 own ∧ Reaches m shell 0 file elf pt sz m1 := by
  obtain ⟨m,own,first,running⟩ := ample_running
  unfold loadsSample at loads
  rw [first] at loads
  obtain ⟨-,⟨⟩,loads⟩ := (Option.any_eq_true _ _).mp loads
  obtain ⟨elf,parsed,loads⟩ := (Option.any_eq_true _ _).mp loads
  obtain ⟨⟨pt,m1⟩,second,loads⟩ := (Option.any_eq_true _ _).mp loads
  obtain ⟨real,loads⟩ := Bool.and_eq_true_iff.mp loads
  obtain ⟨⟨ok,sz2,m2⟩,loaded,loads⟩ := (Option.any_eq_true _ _).mp loads
  obtain ⟨done,loads⟩ := Bool.and_eq_true_iff.mp loads
  obtain ⟨⟨sz,m3⟩,stack,some⟩ := (Option.any_eq_true _ _).mp loads
  obtain ⟨sz,rfl⟩ := Option.isSome_iff_exists.mp some
  cases done
  exact ⟨m,own,elf,pt,sz,m3,running,parsed,of_decide_eq_true real,m1,sz2,m2,toOption_eq_some second,toOption_eq_some loaded,toOption_eq_some stack⟩

end Xv6.Exec
