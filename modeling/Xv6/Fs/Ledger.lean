import Xv6.Fs.Inodes
import Xv6.Lib.Count
import Mathlib.Tactic

/-! Who owns the references of the file table and the inode table. A ledger
lists what a process, or the call it is in, has: references to inodes and to
files, files it has not filled in yet, and ends of pipes that it still has to
close. The counts in the tables are those of all ledgers together. -/
namespace Xv6.Fs
open Lib Lib.Count Function
variable {change : File → File} {pi : PipeId}

def File.isInode (file : File) : Bool := file.type = .fdInode ∨ file.type = .fdDevice

def File.holds (ip : Slot) (file : File) : Bool := file.isInode = true ∧ file.ip = ip

def Proc.holds (ip : Slot) (proc : Proc) : Bool := proc.used = true ∧ proc.cwd = ip

def holders (h : Handles) (ip : Slot) : Nat := count (File.holds ip) h.file + count (Proc.holds ip) h.proc

inductive Item
  | slot (ip : Slot) -- a reference to an inode
  | file (f : FileId) -- a reference to a file
  | raw (f : FileId) -- the only reference to a file that is not filled in yet
  | pipeEnd (pi : PipeId) (writable : Bool) -- an open end of a pipe that no file has any more
  deriving DecidableEq

abbrev Items := Item → Nat

def one (item : Item) : Items := Pi.single item 1

theorem one_apply (item other : Item) : one item other = if other = item then 1 else 0 := Pi.single_apply ..

def File.holdsEnd (pi : PipeId) (writable : Bool) (file : File) : Bool :=
  file.type = .fdPipe ∧ file.pipe = pi ∧ file.writable = writable

def PipeEnds.isOpen (ends : PipeEnds) (writable : Bool) : Bool := if writable then ends.writeopen else ends.readopen

def openIn (page : Option PipeEnds) (writable : Bool) : Nat := if page.any (·.isOpen writable) then 1 else 0

theorem openIn_page (ends : PipeEnds) (writable : Bool) : openIn ends.page writable = if ends.isOpen writable then 1 else 0 := by
  obtain ⟨readopen,writeopen⟩ := ends
  cases writable <;> cases readopen <;> cases writeopen <;> rfl

theorem close_isOpen (ends : PipeEnds) (writable other : Bool) :
    (ends.close writable).isOpen other = (ends.isOpen other && decide (other ≠ writable)) := by
  cases writable <;> cases other <;> simp [PipeEnds.close,PipeEnds.isOpen]

theorem page_used {ends later : PipeEnds} (kept : ends.page = some later) :
    later.readopen = true ∨ later.writeopen = true := by
  unfold PipeEnds.page at kept
  split_ifs at kept with both
  cases kept
  simpa [imp_iff_not_or] using both

structure Counts (all : Items) (ref : Slot → Int) (h : Handles) : Prop where
  inodes : ∀ j, ref j = all (.slot j) + count (File.holds j) h.file
  files : ∀ f, (h.file f).ref = all (.file f) + all (.raw f)
  closed : ∀ f, (h.file f).ref = 0 → (h.file f).type = .fdNone
  raw : ∀ f, 0 < all (.raw f) → (h.file f).ref = 1 ∧ (h.file f).type = .fdNone
  ends : ∀ pi writable, openIn (h.pipe pi) writable = all (.pipeEnd pi writable) + count (File.holdsEnd pi writable) h.file
  pages : ∀ pi ends, h.pipe pi = some ends → ends.readopen = true ∨ ends.writeopen = true

variable {all : Items} {ref : Slot → Int} {h h' : Handles} {f : FileId} {ip : Slot}

theorem holds_setFile (h : Handles) (f : FileId) (change : File → File) (test : File → Bool) :
    count test (setFile f change h).file + (if test (h.file f) then 1 else 0) =
      count test h.file + (if test (change (h.file f)) then 1 else 0) :=
  count_update test h.file f (change (h.file f))

theorem setFile_file (h : Handles) (f g : FileId) (change : File → File) :
    (setFile f change h).file g = if g = f then change (h.file f) else h.file g :=
  update_apply _ _ _ _

def File.has (file : File) : Items :=
  match file.type with
  | .fdPipe => one (.pipeEnd file.pipe file.writable)
  | .fdInode | .fdDevice => one (.slot file.ip)
  | .fdNone => 0

theorem File.has_slot (file : File) (j : Slot) : file.has (.slot j) = if file.holds j then 1 else 0 := by
  cases type : file.type <;> simp [File.has,File.holds,File.isInode,type,one_apply,eq_comm]

theorem File.has_pipeEnd (file : File) (pi : PipeId) (writable : Bool) :
    file.has (.pipeEnd pi writable) = if file.holdsEnd pi writable then 1 else 0 := by
  have flip : (pi = file.pipe ∧ writable = file.writable) ↔ (file.pipe = pi ∧ file.writable = writable) :=
    and_congr eq_comm eq_comm
  cases type : file.type <;> simp [File.has,File.holdsEnd,type,one_apply,flip]

theorem File.has_file (file : File) (f : FileId) : file.has (.file f) = 0 ∧ file.has (.raw f) = 0 := by
  cases type : file.type <;> simp [File.has,type,one_apply]

namespace Counts

theorem procs (counts : Counts all ref h) (files : h'.file = h.file) (pipes : h'.pipe = h.pipe) : Counts all ref h' := by
  obtain ⟨inodes,refs,closed,raw,ends,pages⟩ := counts
  exact ⟨by rw [files]; exact inodes,by rw [files]; exact refs,by rw [files]; exact closed,by rw [files]; exact raw,
    by rw [files,pipes]; exact ends,by rw [pipes]; exact pages⟩

theorem slot_more (counts : Counts all ref h) (ip : Slot) :
    Counts (all + one (.slot ip)) (update ref ip (ref ip + 1)) h := by
  obtain ⟨inodes,refs,closed,raw,ends,pages⟩ := counts
  refine ⟨fun j => ?_,by simpa [one_apply] using refs,closed,by simpa [one_apply] using raw,
    by simpa [one_apply] using ends,pages⟩
  have before := inodes j
  rw [update_apply,Pi.add_apply,one_apply]
  by_cases me : j = ip
  · subst me
    simp only [if_true]
    omega
  · rw [if_neg me,if_neg fun same => me (Item.slot.inj same)]
    omega

theorem slot_less (counts : Counts (all + one (.slot ip)) ref h) : Counts all (update ref ip (ref ip - 1)) h := by
  obtain ⟨inodes,refs,closed,raw,ends,pages⟩ := counts
  refine ⟨fun j => ?_,by simpa [one_apply] using refs,closed,by simpa [one_apply] using raw,
    by simpa [one_apply] using ends,pages⟩
  have before := inodes j
  rw [Pi.add_apply,one_apply] at before
  rw [update_apply]
  by_cases me : j = ip
  · subst me
    simp only [if_true] at before ⊢
    omega
  · rw [if_neg fun same => me (Item.slot.inj same)] at before
    rw [if_neg me]
    omega

/-- A file changes, and with it what is owned outside the file table: what the
file has now it had before, or it was owned before. -/
theorem setFile (counts : Counts all ref h) {after : Items} (moved : ∀ item, (∀ g, item ≠ .file g ∧ item ≠ .raw g) →
      after item + (change (h.file f)).has item = all item + (h.file f).has item)
    (others : ∀ g, g ≠ f → after (.file g) = all (.file g) ∧ after (.raw g) = all (.raw g))
    (counted : (change (h.file f)).ref = after (.file f) + after (.raw f))
    (closed : (change (h.file f)).ref = 0 → (change (h.file f)).type = .fdNone)
    (raw : 0 < after (.raw f) → (change (h.file f)).ref = 1 ∧ (change (h.file f)).type = .fdNone) :
    Counts after ref (setFile f change h) := by
  refine ⟨fun j => ?_,fun g => ?_,fun g => ?_,fun g => ?_,fun pi writable => ?_,counts.pages⟩
  · have before := counts.inodes j
    have changed := holds_setFile h f change (File.holds j)
    have balance := moved (.slot j) (by simp)
    rw [File.has_slot,File.has_slot] at balance
    omega
  · rw [setFile_file]
    by_cases me : g = f
    · rw [if_pos me,me]
      exact counted
    · rw [if_neg me,(others g me).1,(others g me).2]
      exact counts.files g
  · rw [setFile_file]
    split_ifs
    · exact closed
    · exact counts.closed g
  · rw [setFile_file]
    by_cases me : g = f
    · rw [if_pos me,me]
      exact raw
    · rw [if_neg me,(others g me).2]
      exact counts.raw g
  · have before := counts.ends pi writable
    have changed := holds_setFile h f change (File.holdsEnd pi writable)
    have balance := moved (.pipeEnd pi writable) (by simp)
    rw [File.has_pipeEnd,File.has_pipeEnd] at balance
    change openIn (h.pipe pi) writable = _
    omega

theorem touch (counts : Counts all ref h) (refs : (change (h.file f)).ref = (h.file f).ref)
    (type : (change (h.file f)).type = (h.file f).type) (has : (change (h.file f)).has = (h.file f).has) :
    Counts all ref (Fs.setFile f change h) := by
  refine counts.setFile (fun _ _ => by rw [has]) (fun _ _ => ⟨rfl,rfl⟩) ?_ ?_ ?_
  · rw [refs]
    exact counts.files f
  · rw [refs,type]
    exact counts.closed f
  · rw [refs,type]
    exact counts.raw f

theorem filealloc (counts : Counts all ref h) (free : (h.file f).ref = 0) :
    Counts (all + one (.raw f)) ref (Fs.setFile f (fun file => { file with ref := 1 }) h) := by
  have none := counts.closed f free
  have nobody := counts.files f
  rw [free] at nobody
  refine counts.setFile (fun item other => ?_) (fun g apart => ?_) ?_ (by simp) fun _ => ⟨rfl,none⟩
  · rw [Pi.add_apply,one_apply,if_neg (other f).2]
    rfl
  · simp [one_apply,apart]
  · simp [one_apply]
    omega

theorem filedup (counts : Counts (all + one (.file f)) ref h) :
    Counts (all + one (.file f) + one (.file f)) ref (Fs.setFile f (fun file => { file with ref := file.ref + 1 }) h) := by
  have before := counts.files f
  simp only [Pi.add_apply,one_apply,if_true,reduceCtorEq,if_false] at before
  refine counts.setFile (fun item other => ?_) (fun g apart => ?_) ?_ (fun zero => ?_) fun some => ?_
  · rw [Pi.add_apply _ (one (.file f)),one_apply,if_neg (other f).1]
    rfl
  · simp [one_apply,apart]
  · simp [one_apply,before]
    omega
  · dsimp only at zero
    omega
  · -- a file that is not filled in has one reference only
    simp only [Pi.add_apply,one_apply,reduceCtorEq,if_false] at some
    have single := (counts.raw f (by simpa [one_apply] using some)).1
    omega

/-- fileclose of a reference: with the last one, the caller gets what the file
has. -/
theorem fileclose {item : Item} (counts : Counts (all + one item) ref h) (mine : item = .file f ∨ item = .raw f) :
    match (closeFile f h).1 with
    | none => True
    | some none => Counts all ref (closeFile f h).2
    | some (some ff) => Counts (all + ff.has) ref (closeFile f h).2 := by
  have before := counts.files f
  have unfilled := counts.raw f
  have apart : ∀ g, g ≠ f → (all + one item) (.file g) = all (.file g) ∧ (all + one item) (.raw g) = all (.raw g) := by
    intro g other
    rcases mine with rfl | rfl <;> simp [one_apply,other]
  have elsewhere : ∀ other, (∀ g, other ≠ .file g ∧ other ≠ .raw g) → (all + one item) other = all other := by
    intro other out
    rw [Pi.add_apply,one_apply,if_neg]
    · rfl
    · rcases mine with rfl | rfl
      · exact (out f).1
      · exact (out f).2
  have owned : (all + one item) (.file f) + (all + one item) (.raw f) = all (.file f) + all (.raw f) + 1 := by
    rcases mine with rfl | rfl <;> simp [one_apply] <;> omega
  unfold closeFile
  dsimp only
  by_cases low : (h.file f).ref < 1
  · rw [if_pos low]
    trivial
  rw [if_neg low]
  by_cases more : 0 < (h.file f).ref - 1
  · rw [if_pos more]
    dsimp only
    refine counts.setFile (fun other out => by rw [elsewhere other out]; rfl)
      (fun g other => ⟨(apart g other).1.symm,(apart g other).2.symm⟩) ?_ (fun zero => ?_) fun some => ?_
    · dsimp only
      omega
    · dsimp only at zero
      omega
    · have single := unfilled (by rw [Pi.add_apply]; omega)
      omega
  · rw [if_neg more]
    dsimp only
    refine counts.setFile (fun other out => ?_) (fun g other => ?_) ?_ (fun _ => rfl) fun some => ?_
    · rw [Pi.add_apply,elsewhere other out]
      rfl
    · rw [(apart g other).1,(apart g other).2]
      simp [File.has_file]
    · simp only [Pi.add_apply,File.has_file] at before owned ⊢
      omega
    · rw [Pi.add_apply,(File.has_file _ f).2] at some
      omega

/-- A file that is its maker's alone is filled in: from now on the file has the
inode's reference or the pipe's end. -/
theorem fill (counts : Counts (all + one (.raw f) + (change (h.file f)).has) ref h)
    (refs : (change (h.file f)).ref = (h.file f).ref) : Counts (all + one (.file f)) ref (Fs.setFile f change h) := by
  have none := File.has_file (change (h.file f))
  have before := counts.files f
  obtain ⟨single,type⟩ := counts.raw f (by simp [one_apply])
  have empty : (h.file f).has = 0 := by rw [File.has,type]
  simp only [Pi.add_apply,one_apply,reduceCtorEq,if_false,if_true,(none f).1,(none f).2] at before
  refine counts.setFile (fun item other => ?_) (fun g apart => ?_) ?_ (fun zero => ?_) fun some => ?_
  · simp only [Pi.add_apply,one_apply,if_neg (other f).1,if_neg (other f).2,empty]
    rfl
  · simp [one_apply,apart,(none g).1,(none g).2]
  · simp [one_apply,refs,before]
    omega
  · rw [refs] at zero
    omega
  · simp only [Pi.add_apply,one_apply,reduceCtorEq,if_false] at some
    omega

theorem raw_ne {g : FileId} (counts : Counts (all + one (.raw f) + one (.raw g)) ref h) : g ≠ f := by
  rintro rfl
  have before := counts.files g
  have single := (counts.raw g (by simp [one_apply])).1
  simp only [Pi.add_apply,one_apply,if_true,reduceCtorEq,if_false] at before
  omega

theorem setPipe (counts : Counts all ref h) {after : Items} {page : Option PipeEnds}
    (others : ∀ item, (∀ writable, item ≠ .pipeEnd pi writable) → after item = all item)
    (moved : ∀ writable, after (.pipeEnd pi writable) + openIn (h.pipe pi) writable =
      all (.pipeEnd pi writable) + openIn page writable)
    (used : ∀ ends, page = some ends → ends.readopen = true ∨ ends.writeopen = true) :
    Counts after ref { h with pipe := update h.pipe pi page } := by
  obtain ⟨inodes,refs,closed,raw,ends,pages⟩ := counts
  refine ⟨fun j => ?_,fun f => ?_,closed,fun f => ?_,fun pj writable => ?_,fun pj => ?_⟩
  · rw [others (.slot j) (by simp)]
    exact inodes j
  · rw [others (.file f) (by simp),others (.raw f) (by simp)]
    exact refs f
  · rw [others (.raw f) (by simp)]
    exact raw f
  · grind [update_apply]
  · by_cases me : pj = pi
    · subst me
      simpa using used
    · simpa [update_of_ne me] using pages pj

theorem newPipe {f0 f1 : FileId} (counts : Counts (all + one (.raw f0) + one (.raw f1)) ref h)
    (free : h.pipe pi = none) : Counts (all + one (.file f0) + one (.file f1)) ref (Fs.newPipe f0 f1 pi h) := by
  have other := counts.raw_ne
  have paged : Counts (all + one (.raw f0) + one (.raw f1) + one (.pipeEnd pi false) + one (.pipeEnd pi true)) ref
      { h with pipe := update h.pipe pi (some ⟨true,true⟩) } := by
    refine counts.setPipe (fun item other => ?_) (fun writable => ?_) (by simp)
    · simp [one_apply,other]
    · cases writable <;> simp [free,openIn,PipeEnds.isOpen,one_apply]
  have first : Counts (all + one (.raw f1) + one (.pipeEnd pi true) + one (.file f0)) ref
      (Fs.setFile f0 (readEnd pi) { h with pipe := update h.pipe pi (some ⟨true,true⟩) }) := by
    refine Counts.fill ?_ rfl
    convert paged using 1
    change _ + one (.pipeEnd pi false) = _
    abel
  refine Counts.fill ?_ rfl
  convert first using 1
  change _ + one (.pipeEnd pi true) = _
  abel

theorem closePipe {writable : Bool} (counts : Counts (all + one (.pipeEnd pi writable)) ref h) :
    (Fs.closePipe pi writable h).1 = true ∧ Counts all ref (Fs.closePipe pi writable h).2 := by
  have mine := counts.ends pi writable
  simp only [Pi.add_apply,one_apply,if_true] at mine
  unfold Fs.closePipe
  cases there : h.pipe pi with
  | none =>
    simp only [there,openIn,Option.any_none,Bool.false_eq_true,if_false] at mine
    omega
  | some ends =>
    refine ⟨rfl,counts.setPipe (fun item other => ?_) (fun w => ?_) fun later => ?_⟩
    · simp [one_apply,other]
    · have isOpen : ends.isOpen writable = true := by
        by_contra shut
        simp only [there,openIn,Option.any_some,shut,if_false] at mine
        omega
      rw [openIn_page,close_isOpen,there,Pi.add_apply,one_apply]
      by_cases same : w = writable
      · subst same
        simp [openIn,isOpen]
      · simp [openIn,same]
    · exact page_used

end Counts
end Xv6.Fs
