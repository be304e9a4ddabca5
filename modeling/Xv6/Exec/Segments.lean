import Xv6.Exec.Kexec

/-! The program that a file describes. kexec cuts the 64-bit offsets of the file to 32
bits, so it takes some files for programs whose headers point outside of them. For a
file that is as it should be, what is loaded is what the program headers say. -/
namespace Xv6.Exec
open Lib.Bytes Vm List

variable {m₀ : Memory} {caller : Caller} {trampolinePage : Frame} {own : Frame → Option Place} {file : File} {argv : List (List Byte)}
  {path : List Byte} {outcome : Outcome} {elf : Elfhdr}

/-! Which files are accepted. -/

def table (file : File) (elf : Elfhdr) : List Proghdr :=
  (range elf.phnum.toNat).map fun i => proghdr ((file.drop (elf.phoff.toNat + i * proghdrSize)).take proghdrSize)

def Contains (file : File) (off len : Nat) : Prop := ∀ k, off ≤ k → k < off + len → k < file.length

/-- The program headers and the segments that are to be loaded lie within the file. -/
def Within (file : File) (elf : Elfhdr) : Prop :=
  Contains file elf.phoff.toNat (elf.phnum.toNat * proghdrSize) ∧
    ∀ ph ∈ table file elf, ph.type = progLoad → Contains file ph.off.toNat ph.filesz.toNat

/-- The offsets that are used have 32 bits. -/
def Narrow (file : File) (elf : Elfhdr) : Prop :=
  elf.phnum.toNat = 0 ∨ elf.phoff.toNat < 2^32 ∧ ∀ ph ∈ table file elf, ph.type = progLoad → ph.filesz.toNat = 0 ∨ ph.off.toNat < 2^32

theorem contains_iff {off len : Nat} : Contains file off len ↔ len = 0 ∨ off + len ≤ file.length := by
  constructor
  · intro all
    rcases Nat.eq_zero_or_pos len with none | some
    · exact .inl none
    · have last := all (off + len - 1) (by omega) (by omega)
      exact .inr (by omega)
  · rintro (none | fits) k low high <;> omega

theorem readi_inside {off n : BitVec 32} (short : file.length < 2^32) (inside : off.toNat + n.toNat ≤ file.length) :
    readi file off n = (file.drop off.toNat).take n.toNat := by
  refine if_neg (not_or.mpr ⟨by omega,?_⟩)
  rw [BitVec.lt_def,BitVec.toNat_add,Nat.mod_eq_of_lt (by omega)]
  omega

theorem headers_eq {turns : Nat} {off : BitVec 32} (short : file.length < 2^32) (inside : turns = 0 ∨ off.toNat + turns * proghdrSize ≤ file.length) :
    headers file turns off = (range turns).map fun i => proghdr ((file.drop (off.toNat + i * proghdrSize)).take proghdrSize) := by
  induction turns generalizing off with
  | zero => rfl
  | succ turns ih =>
    have fits := inside.resolve_left (Nat.succ_ne_zero _)
    rw [Nat.succ_mul] at fits
    have count : (BitVec.ofNat 32 proghdrSize).toNat = proghdrSize := by decide
    have next : (off + BitVec.ofNat 32 proghdrSize).toNat = off.toNat + proghdrSize := by
      rw [BitVec.toNat_add,count,Nat.mod_eq_of_lt (by omega)]
    rw [headers,readi_inside short (by rw [count]; omega),ih (.inr (by rw [next]; omega)),range_succ_eq_map,map_cons,map_map,
      Nat.zero_mul,Nat.add_zero,count,next]
    refine congrArg (_ :: ·) (map_congr_left fun i _ => ?_)
    rw [Function.comp_apply,Nat.succ_mul,Nat.add_assoc,Nat.add_comm proghdrSize]

theorem kexec_succeeds (running : Running m₀ caller trampolinePage own) (admitted : Admitted argv) (short : file.length < 2^32)
    (ran : kexec m₀ caller trampolinePage path (some file) argv = .ok outcome) (success : outcome.r ≠ -1) :
    ∃ elf pt cown, Succeeds m₀ caller own path file argv elf outcome pt cown := by
  obtain ⟨outcome',ran',-,result,-⟩ := kexec_runs running admitted path (some file) fun file' same => by cases same; exact short
  rw [ran] at ran'
  cases ran'
  rcases result with fails | ⟨file',elf,pt,cown,same,succeeds⟩
  · exact absurd fails.r success
  · cases same
    exact ⟨elf,pt,cown,succeeds⟩

/-- A program that has been started lies within its file exactly if the offsets that
it uses have 32 bits. -/
theorem exec_within_iff (running : Running m₀ caller trampolinePage own) (admitted : Admitted argv) (short : file.length < 2^32)
    (ran : kexec m₀ caller trampolinePage path (some file) argv = .ok outcome) (success : outcome.r ≠ -1) :
    ∃ elf, header file = some elf ∧ (Within file elf ↔ Narrow file elf) := by
  obtain ⟨elf,pt,cown,succeeds⟩ := kexec_succeeds running admitted short ran success
  refine ⟨elf,succeeds.header,?_⟩
  rcases Nat.eq_zero_or_pos elf.phnum.toNat with none | some
  · have empty : table file elf = [] := by rw [table,none]; rfl
    refine ⟨fun _ => .inl none,fun _ => ⟨contains_iff.mpr (.inl (by rw [none,Nat.zero_mul])),fun ph member => ?_⟩⟩
    rw [empty] at member
    cases member
  constructor
  · rintro ⟨first,all⟩
    have size : 0 < elf.phnum.toNat * proghdrSize := Nat.mul_pos some (by decide)
    have inside := (contains_iff.mp first).resolve_left (Nat.ne_of_gt size)
    refine .inr ⟨by omega,fun ph member load => ?_⟩
    rcases contains_iff.mp (all ph member load) with empty | fits
    · exact .inl empty
    · exact .inr (by omega)
  · rintro (none | ⟨small,narrow⟩)
    · omega
    · have offset : (elf.phoff.setWidth 32).toNat = elf.phoff.toNat := by rw [BitVec.toNat_setWidth,Nat.mod_eq_of_lt small]
      have inside := succeeds.table
      have same := headers_eq short inside
      rw [offset] at inside same
      refine ⟨contains_iff.mpr (inside.imp (fun zero => by rw [zero,Nat.zero_mul]) id),fun ph member load => ?_⟩
      rw [table,← same] at member
      rcases (succeeds.sound ph member load).inside with empty | fits
      · exact contains_iff.mpr (.inl empty)
      · rw [same] at member
        rcases narrow ph member load with empty | small
        · exact contains_iff.mpr (.inl empty)
        · rw [BitVec.toNat_setWidth,Nat.mod_eq_of_lt small] at fits
          exact contains_iff.mpr (.inr fits)

def aliased : File := elfFile (2^32 + 64) [programHeader 0 0 0 0 0 0] []

def plain : File := elfFile 64 [programHeader 0 0 0 0 0 0] []

/-- A file that gets as far as the stack is started. -/
theorem sample_runs (short : file.length < 2^32) (loads : loadsSample file = true) : ∃ m own outcome, Running m shell 0 own ∧
    kexec m shell 0 [] (some file) [] = .ok outcome ∧ outcome.r ≠ -1 := by
  obtain ⟨m,own,elf,pt,sz,m1,running,reaches⟩ := sample_reaches loads
  obtain ⟨outcome,ran,-,-,exactly⟩ := kexec_runs running admitted_none [] (some file) fun file' same => by cases same; exact short
  refine ⟨m,own,outcome,running,ran,fun failed => ?_⟩
  exact (exactly file elf pt sz m1 rfl reaches).mp failed (by decide)

theorem exec_within_iff_plain : ∃ m own outcome, Running m shell 0 own ∧ kexec m shell 0 [] (some plain) [] = .ok outcome ∧ outcome.r ≠ -1 ∧
    ∃ elf, header plain = some elf ∧ (Within plain elf ↔ Narrow plain elf) := by
  obtain ⟨m,own,outcome,running,ran,success⟩ := sample_runs (show plain.length < 2^32 by decide +kernel) (by decide +kernel)
  exact ⟨m,own,outcome,running,ran,success,exec_within_iff running admitted_none (by decide +kernel) ran success⟩

theorem exec_starts_aliased : ¬∀ (m : Memory) (caller : Caller) (trampolinePage : Frame) (own : Frame → Option Place) (argv : List (List Byte))
    (path : List Byte) (file : File) (outcome : Outcome), Running m caller trampolinePage own → Admitted argv → file.length < 2^32 →
    kexec m caller trampolinePage path (some file) argv = .ok outcome → outcome.r ≠ -1 → ∃ elf, header file = some elf ∧ Within file elf := by
  intro claim
  have length : aliased.length = 120 := by decide +kernel
  obtain ⟨m,own,outcome,running,ran,success⟩ := sample_runs (show aliased.length < 2^32 by rw [length]; decide) (by decide +kernel)
  obtain ⟨elf,parsed,first,-⟩ := claim m shell 0 own [] [] aliased outcome running admitted_none (by rw [length]; decide) ran success
  have fields : (header aliased).map (fun elf => (elf.phoff.toNat,elf.phnum.toNat)) = some (2^32 + 64,1) := by decide +kernel
  rw [parsed] at fields
  obtain ⟨place,count⟩ := Prod.mk.inj (Option.some.inj fields)
  have inside := first elf.phoff.toNat (Nat.le_refl _) (by rw [count]; simp only [proghdrSize]; omega)
  rw [length,place] at inside
  omega

/-! What is loaded. -/

def Covers (ph : Proghdr) (v : Nat) : Prop := ∃ w, ph.vaddr.toNat ≤ w ∧ w < ph.vaddr.toNat + ph.memsz.toNat ∧ w / pgsize = v

/-- The segments are in ascending order and no two of them have a page in common. -/
def Ordered (phs : List Proghdr) : Prop :=
  phs.Pairwise fun a b => a.vaddr.toNat ≤ b.vaddr.toNat ∧ ∀ v, ¬(Covers a v ∧ Covers b v)

def segments (phs : List Proghdr) : List Proghdr := phs.filter fun ph => decide (ph.type = progLoad)

def segmentLeaf (file : File) (ph : Proghdr) (v : Nat) : Option (Pte × Page) :=
  some ((blank (flags2perm ph.flags)).1,fun k =>
    if k < pgsize ∧ ph.vaddr.toNat ≤ v * pgsize + k ∧ v * pgsize + k < ph.vaddr.toNat + ph.filesz.toNat then
      file.getD ((ph.off.setWidth 32).toNat + (v * pgsize + k - ph.vaddr.toNat)) 0
    else 0)

def Above (sz : Nat) (ph : Proghdr) : Prop := 0 < ph.memsz.toNat → npages sz * pgsize ≤ ph.vaddr.toNat

theorem place_above {ph : Proghdr} {sz v : Nat} {leaves : Nat → Option (Pte × Page)} (above : Above sz ph) (covers : Covers ph v) :
    place file ph sz leaves v = segmentLeaf file ph v := by
  obtain ⟨w,low,high,rfl⟩ := covers
  have bottom := above (by omega)
  have new : npages sz ≤ w / pgsize ∧ w / pgsize < npages (ph.vaddr.toNat + ph.memsz.toNat) := by
    simp only [npages,pgsize] at *
    omega
  rw [place,overlay,grow,if_pos new]
  rfl

theorem place_below {ph : Proghdr} {sz v : Nat} {leaves : Nat → Option (Pte × Page)} (sound : Sound file ph) (above : Above sz ph)
    (below : v < npages sz) : place file ph sz leaves v = leaves v := by
  rw [place,overlay,grow,if_neg (by omega)]
  cases leaves v with
  | none => rfl
  | some leaf =>
    refine congrArg (fun bytes => some (leaf.1,bytes)) (funext fun k => if_neg ?_)
    rintro ⟨short,low,high⟩
    have bottom := above (by have size := sound.size; omega)
    have next : (v + 1) * pgsize ≤ npages sz * pgsize := Nat.mul_le_mul_right _ below
    rw [Nat.succ_mul] at next
    omega

theorem above_next {a b : Proghdr} {sz : Nat} (sound : Sound file a) (order : a.vaddr.toNat ≤ b.vaddr.toNat)
    (apart : ∀ v, ¬(Covers a v ∧ Covers b v)) (above : Above sz b) : Above (max sz (a.vaddr.toNat + a.memsz.toNat)) b := by
  intro some
  have first := above some
  have aligned := sound.aligned
  rcases Nat.le_total sz (a.vaddr.toNat + a.memsz.toNat) with le | le
  · rw [Nat.max_eq_right le]
    by_contra less
    -- the page where b begins is one of a
    have mine : b.vaddr.toNat < a.vaddr.toNat + a.memsz.toNat ∨ b.vaddr.toNat / pgsize = (a.vaddr.toNat + a.memsz.toNat - 1) / pgsize ∧ 0 < a.memsz.toNat := by
      simp only [npages,pgsize] at *
      omega
    refine apart (b.vaddr.toNat / pgsize) ⟨?_,b.vaddr.toNat,Nat.le_refl _,by omega,rfl⟩
    rcases mine with inside | ⟨last,size⟩
    · exact ⟨b.vaddr.toNat,order,inside,rfl⟩
    · exact ⟨a.vaddr.toNat + a.memsz.toNat - 1,by omega,by omega,last.symm⟩
  · rw [Nat.max_eq_left le]
    exact first

theorem assemble_shows {phs : List Proghdr} {sz : Nat} {leaves : Nat → Option (Pte × Page)}
    (sound : ∀ ph ∈ phs, ph.type = progLoad → Sound file ph) (ordered : Ordered (segments phs)) (above : ∀ ph ∈ segments phs, Above sz ph) :
    sz ≤ (assemble file phs sz leaves).1 ∧ (∀ v < npages sz, (assemble file phs sz leaves).2 v = leaves v) ∧
      ∀ ph ∈ segments phs, ∀ v, Covers ph v → v < npages (assemble file phs sz leaves).1 ∧
        (assemble file phs sz leaves).2 v = segmentLeaf file ph v := by
  induction phs generalizing sz leaves with
  | nil => exact ⟨Nat.le_refl _,fun _ _ => rfl,nofun⟩
  | cons ph rest ih =>
    have later : ∀ ph' ∈ rest, ph'.type = progLoad → Sound file ph' := fun ph' member => sound ph' (mem_cons_of_mem _ member)
    by_cases load : ph.type = progLoad
    swap
    · have same : segments (ph :: rest) = segments rest := filter_cons_of_neg (by rw [decide_eq_true_iff]; exact load)
      rw [same] at ordered above ⊢
      rw [assemble,if_pos load]
      exact ih later ordered above
    have same : segments (ph :: rest) = ph :: segments rest := filter_cons_of_pos (by rw [decide_eq_true_iff]; exact load)
    rw [same] at ordered above ⊢
    obtain ⟨first,ordered'⟩ := pairwise_cons.mp ordered
    have fine := sound ph mem_cons_self load
    have mine := above ph mem_cons_self
    obtain ⟨grows,keeps,shows⟩ := @ih (max sz (ph.vaddr.toNat + ph.memsz.toNat)) (place file ph sz leaves) later ordered' fun ph' member =>
      above_next fine (first ph' member).1 (first ph' member).2 (above ph' (mem_cons_of_mem _ member))
    rw [assemble,if_neg (not_not.mpr load)]
    have more := npages_le (Nat.le_max_left sz (ph.vaddr.toNat + ph.memsz.toNat))
    refine ⟨(Nat.le_max_left ..).trans grows,fun v below => ?_,fun ph' member v covers => ?_⟩
    · rw [keeps v (by omega),place_below fine mine below]
    · rcases mem_cons.mp member with rfl | member
      · have inside : v < npages (max sz (ph'.vaddr.toNat + ph'.memsz.toNat)) := by
          obtain ⟨w,low,high,rfl⟩ := covers
          refine lt_npages.mpr (Nat.lt_of_le_of_lt (Nat.div_mul_le_self w pgsize) ?_)
          omega
        exact ⟨Nat.lt_of_lt_of_le inside (npages_le grows),by rw [keeps v inside,place_above mine covers]⟩
      · exact shows ph' member v covers

/-- What a process sees of a segment of its program. -/
structure Shown (file : File) (ph : Proghdr) (m : Memory) (q : Proc) : Prop where
  bytes : ∀ k < ph.filesz.toNat, m.view q (ph.vaddr.toNat + k) = file[ph.off.toNat + k]?
  zero : ∀ k, ph.filesz.toNat ≤ k → k < ph.memsz.toNat → m.view q (ph.vaddr.toNat + k) = some 0
  permissions : ∀ v, Covers ph v → ∃ flags page, m.leaf q.pagetable v = some (flags,page) ∧
    (flags &&& pteW ≠ 0 ↔ ph.flags &&& 2 ≠ 0) ∧ (flags &&& pteX ≠ 0 ↔ ph.flags &&& 1 ≠ 0)

theorem flags2perm_bits (flags : BitVec 32) : (blank (flags2perm flags)).1 &&& pteU ≠ 0 ∧
    ((blank (flags2perm flags)).1 &&& pteW ≠ 0 ↔ flags &&& 2 ≠ 0) ∧ ((blank (flags2perm flags)).1 &&& pteX ≠ 0 ↔ flags &&& 1 ≠ 0) := by
  unfold flags2perm
  by_cases write : flags &&& 2 = 0 <;> by_cases execute : flags &&& 1 = 0 <;>
    simp only [write,execute,ne_eq,not_true_eq_false,not_false_eq_true,if_true,if_false] <;> decide

theorem covers_of_lt {ph : Proghdr} {k : Nat} (inside : k < ph.memsz.toNat) : Covers ph ((ph.vaddr.toNat + k) / pgsize) :=
  ⟨ph.vaddr.toNat + k,by omega,by omega,rfl⟩

theorem view_segment {m : Memory} {q : Proc} {qown : Frame → Option Place} {ph : Proghdr} (resident : Resident m q qown)
    (leaves : ∀ v, Covers ph v → v < userPages ∧ m.leaf q.pagetable v = segmentLeaf file ph v) {k : Nat} (inside : k < ph.memsz.toNat) :
    m.view q (ph.vaddr.toNat + k) = some (if k < ph.filesz.toNat then file.getD ((ph.off.setWidth 32).toNat + k) 0 else 0) := by
  obtain ⟨below,leaf⟩ := leaves _ (covers_of_lt inside)
  have address : (ph.vaddr.toNat + k) / pgsize * pgsize + (ph.vaddr.toNat + k) % pgsize = ph.vaddr.toNat + k := Nat.div_add_mod' ..
  rw [resident.view_leaf below,leaf,segmentLeaf]
  dsimp only
  rw [if_pos (flags2perm_bits ph.flags).1,address,Nat.add_sub_cancel_left]
  have short : (ph.vaddr.toNat + k) % pgsize < pgsize := Nat.mod_lt _ (by decide)
  simp only [short,Nat.le_add_right,Nat.add_lt_add_iff_left,true_and]

theorem shown_of_leaves {m : Memory} {q : Proc} {qown : Frame → Option Place} {ph : Proghdr} (resident : Resident m q qown)
    (size : ph.filesz.toNat ≤ ph.memsz.toNat) (short : file.length < 2^32) (within : Contains file ph.off.toNat ph.filesz.toNat)
    (leaves : ∀ v, Covers ph v → v < userPages ∧ m.leaf q.pagetable v = segmentLeaf file ph v) : Shown file ph m q := by
  refine ⟨fun k low => ?_,fun k past inside => ?_,fun v covers => ?_⟩
  · have fits := (contains_iff.mp within).resolve_left (by omega)
    have offset : (ph.off.setWidth 32).toNat = ph.off.toNat := by
      rw [BitVec.toNat_setWidth,Nat.mod_eq_of_lt (by omega)]
    have there : ph.off.toNat + k < file.length := by omega
    rw [view_segment resident leaves (by omega),if_pos low,offset,getD_eq_getElem?_getD,getElem?_eq_getElem there]
    rfl
  · rw [view_segment resident leaves inside,if_neg (by omega)]
  · obtain ⟨-,leaf⟩ := leaves v covers
    obtain ⟨-,write,execute⟩ := flags2perm_bits ph.flags
    exact ⟨_,_,leaf,write,execute⟩

/-- A program that has been started sees what its file describes: the bytes of the
segments, zeros after them, the permissions, and a stack above a page that it cannot
use. -/
theorem exec_loads_file (running : Running m₀ caller trampolinePage own) (admitted : Admitted argv) (short : file.length < 2^32)
    (ran : kexec m₀ caller trampolinePage path (some file) argv = .ok outcome) (success : outcome.r ≠ -1)
    (parsed : header file = some elf) (within : Within file elf) (ordered : Ordered (segments (table file elf))) :
    (∀ ph ∈ segments (table file elf), Shown file ph outcome.memory outcome.caller.task.proc) ∧
      ∃ n guardFlags guardPage stackFlags stack, outcome.caller.task.sz = (n + 2) * pgsize ∧
        outcome.memory.leaf outcome.caller.task.pagetable n = some (guardFlags,guardPage) ∧ guardFlags &&& pteU = 0 ∧
        outcome.memory.leaf outcome.caller.task.pagetable (n + 1) = some (stackFlags,stack) ∧ stackFlags &&& pteU ≠ 0 ∧ stackFlags &&& pteW ≠ 0 := by
  obtain ⟨elf',pt,cown,succeeds⟩ := kexec_succeeds running admitted short ran success
  have same := succeeds.header
  rw [parsed] at same
  cases same
  have enters := succeeds.enters
  have resident := enters.committed.resident
  have top := npages_user resident.sz
  rw [show (⟨pt,(npages (program file elf).1 + 2) * pgsize⟩ : Proc).sz = (npages (program file elf).1 + 2) * pgsize from rfl,npages_mul] at top
  have leaves := enters.leaves
  rw [enters.process]
  -- within the file phoff is below 2^32, so that the headers which are read are those of the table
  have headersEq : headers file elf.phnum.toNat (elf.phoff.setWidth 32) = table file elf := by
    rcases contains_iff.mp within.1 with none | fits
    · have zero : elf.phnum.toNat = 0 := by
        simp only [proghdrSize] at none
        omega
      rw [table,zero]
      rfl
    · have offset : (elf.phoff.setWidth 32).toNat = elf.phoff.toNat := by
        rcases Nat.eq_zero_or_pos elf.phnum.toNat with none | some
        · rw [BitVec.toNat_setWidth,Nat.mod_eq_of_lt (by omega)]
        · rw [BitVec.toNat_setWidth,Nat.mod_eq_of_lt (by omega)]
      rw [headers_eq short succeeds.table,offset]
      rfl
  have sound := succeeds.sound
  rw [headersEq] at sound
  refine ⟨fun ph member => ?_,npages (program file elf).1,guard,fun _ => 0,(blank pteW).1,
    stackPage ((npages (program file elf).1 + 1) * pgsize) argv fun _ => 0,rfl,?_,?_,?_,?_,?_⟩
  · obtain ⟨listed,load⟩ := List.mem_filter.mp member
    have load := of_decide_eq_true load
    obtain ⟨-,-,shows⟩ := @assemble_shows file (table file elf) 0 (fun _ => none) sound ordered fun ph _ _ => by
      rw [show npages 0 = 0 by decide,Nat.zero_mul]
      exact Nat.zero_le _
    refine shown_of_leaves resident (sound ph listed load).size short (within.2 ph listed load) fun v covers => ?_
    have placed := shows ph member v covers
    rw [← headersEq] at placed
    obtain ⟨inside,leaf⟩ := placed
    have inside' : v < npages (program file elf).1 := inside
    refine ⟨by omega,?_⟩
    refine (leaves v (by omega)).trans ?_
    rw [withStack,if_neg (by omega),if_neg (by omega)]
    exact leaf
  · exact (leaves _ (by omega)).trans (if_pos rfl)
  · decide
  · refine (leaves _ (by omega)).trans ?_
    rw [withStack,if_neg (by omega),if_pos rfl]
  · decide
  · decide

def tiny : File := elfFile 64 [programHeader 1 5 120 0 2 4] [0x13,0x37]

theorem exec_loads_file_tiny : ∃ m own outcome elf, Running m shell 0 own ∧ kexec m shell 0 [] (some tiny) [] = .ok outcome ∧ outcome.r ≠ -1 ∧
    header tiny = some elf ∧ ∃ ph ∈ segments (table tiny elf), Shown tiny ph outcome.memory outcome.caller.task.proc := by
  have length : tiny.length = 122 := by decide +kernel
  obtain ⟨m,own,outcome,running,ran,success⟩ := sample_runs (show tiny.length < 2^32 by rw [length]; decide) (by decide +kernel)
  have parsed : ∃ elf, header tiny = some elf := Option.isSome_iff_exists.mp (by decide +kernel)
  obtain ⟨elf,parsed⟩ := parsed
  have fields : (header tiny).map (fun elf => (elf.phoff.toNat,elf.phnum.toNat,(table tiny elf).map fun ph =>
      (decide (ph.type = progLoad),ph.off.toNat,ph.filesz.toNat))) = some (64,1,[(true,120,2)]) := by decide +kernel
  rw [parsed] at fields
  obtain ⟨place,rest⟩ := Prod.mk.inj (Option.some.inj fields)
  obtain ⟨count,phs⟩ := Prod.mk.inj rest
  obtain ⟨ph,rest,single,first,none⟩ := List.map_eq_cons_iff.mp phs
  cases List.map_eq_nil_iff.mp none
  obtain ⟨load,first⟩ := Prod.mk.inj first
  obtain ⟨off,filesz⟩ := Prod.mk.inj first
  have listed : segments (table tiny elf) = [ph] := by rw [single]; exact List.filter_cons_of_pos load
  have within : Within tiny elf := by
    refine ⟨contains_iff.mpr (.inr (by rw [place,count,length]; decide)),fun ph' member _ => ?_⟩
    rw [single,List.mem_singleton] at member
    cases member
    exact contains_iff.mpr (.inr (by rw [off,filesz,length]))
  have shown := exec_loads_file running admitted_none (by rw [length]; decide) ran success parsed within
    (by rw [listed]; exact List.pairwise_singleton ..)
  have member : ph ∈ segments (table tiny elf) := by rw [listed]; exact List.mem_cons_self
  exact ⟨m,own,outcome,elf,running,ran,success,parsed,ph,member,shown.1 ph member⟩

end Xv6.Exec
