import Xv6.Exec.Segments

/-! The arguments of a new program. While the stack is made sp does not wrap, ustack is
not indexed beyond its end and nothing outside of the stack page is written; the
program then finds its strings and the array of their addresses there. -/
namespace Xv6.Exec
open Lib.Bytes Vm

variable {m₀ m m' : Memory} {caller : Caller} {trampolinePage pt : Frame} {sz n : Nat} {own cown : Frame → Option Place} {page : Page}
  {file : File} {argv : List (List Byte)} {path : List Byte} {traps : Nat → Pte} {elf : Elfhdr}

/-! While it is made. -/

/-- The pushing of the arguments onto a stack that ends at sz: before each string and
before the array there is room for them above address zero and in ustack, and only the
page of the stack is written. -/
structure Safe (m : Memory) (p : Proc) (pt : Frame) (sz : Nat) (argv : List (List Byte)) : Prop where
  strings : ∀ pushed s rest sp ustack m1, argv = pushed ++ s :: rest →
    pushStrings p pt (sz - userstack * pgsize) pushed sz [] m = .ok (some (sp,ustack),m1) → up16 (s.length + 1) ≤ sp ∧ ustack.length < maxarg
  array : ∀ sp ustack m1, pushStrings p pt (sz - userstack * pgsize) argv sz [] m = .ok (some (sp,ustack),m1) →
    up16 ((ustack.length + 1) * 8) ≤ sp ∧ ustack.length < maxarg
  outside : ∀ r m1, pushArguments m p pt sz argv = .ok (r,m1) →
    (∀ f, f ≠ pte2pa (m.entry pt (sz - userstack * pgsize)) → m1.page f = m.page f) ∧
      ∀ k, userstack * pgsize ≤ k → m1.page (pte2pa (m.entry pt (sz - userstack * pgsize))) k =
        m.page (pte2pa (m.entry pt (sz - userstack * pgsize))) k

theorem up16_le {k bound : Nat} (aligned : bound % 16 = 0) (le : k ≤ bound) : up16 k ≤ bound := by
  simp only [up16]
  omega

theorem used_aligned (argv : List (List Byte)) : used argv % 16 = 0 := by
  induction argv with
  | nil => rfl
  | cons s argv ih =>
    have first : up16 (s.length + 1) % 16 = 0 := Nat.mul_mod_left ..
    rw [used_cons]
    omega

theorem Stacked.page_eq (stacked : Stacked m₀ traps pt n m own page) : m.page (pte2pa (m.entry pt ((n + 1) * pgsize))) = page := by
  have leaf := stacked.stack
  unfold Memory.leaf at leaf
  split_ifs at leaf
  exact congrArg Prod.snd (Option.some.inj leaf)

theorem Admitted.pushed {pushed rest : List (List Byte)} (admitted : Admitted (pushed ++ rest)) : Admitted pushed := by
  have count := admitted.count
  rw [List.length_append] at count
  exact ⟨by omega,fun s member => admitted.short s (List.mem_append_left _ member),
    fun s member => admitted.plain s (List.mem_append_left _ member)⟩

theorem Stacked.strings (stacked : Stacked m₀ traps pt n m own page) (p : Proc) (admitted : Admitted argv) {sp : Nat} {ustack : List Nat} {m1 : Memory}
    (ran : pushStrings p pt ((n + 1) * pgsize) argv ((n + 2) * pgsize) [] m = .ok (some (sp,ustack),m1)) :
    (n + 1) * pgsize ≤ sp ∧ sp % 16 = 0 ∧ ustack.length = argv.length := by
  have aligned : (n + 2) * pgsize % 16 = 0 := by
    rw [Nat.mul_mod]
    exact Nat.zero_mod 16
  have size : (n + 2) * pgsize = (n + 1) * pgsize + pgsize := Nat.succ_mul (n + 1) pgsize
  have count := admitted.count
  obtain ⟨r,m2,page2,ran',-,fails,succeeds⟩ := pushStrings_pushes p stacked (show (n + 1) * pgsize ≤ (n + 2) * pgsize by omega)
    (Nat.le_refl _) aligned admitted.short (show ([] : List Nat).length + argv.length < maxarg by rw [List.length_nil]; omega)
  rw [ran] at ran'
  cases ran'
  obtain ⟨lowest,aligned',addressed,-⟩ := succeeds sp ustack rfl
  have enough : ¬(n + 2) * pgsize < (n + 1) * pgsize + used argv := fun less => nomatch fails.mpr less
  refine ⟨by omega,aligned',?_⟩
  rw [addressed,List.nil_append,length_addresses]

theorem Stacked.safe (stacked : Stacked m₀ traps pt n m own page) (p : Proc) (admitted : Admitted argv) : Safe m p pt ((n + 2) * pgsize) argv := by
  have size : (n + 2) * pgsize = (n + 1) * pgsize + pgsize := Nat.succ_mul (n + 1) pgsize
  have base : (n + 2) * pgsize - userstack * pgsize = (n + 1) * pgsize := by
    rw [show userstack * pgsize = pgsize from Nat.one_mul pgsize,size,Nat.add_sub_cancel]
  have least : pgsize ≤ (n + 1) * pgsize := Nat.le_mul_of_pos_left _ (Nat.succ_pos n)
  refine ⟨fun pushed s rest sp ustack m1 split ran => ?_,fun sp ustack m1 ran => ?_,fun r m1 ran => ?_⟩
  · rw [base] at ran
    subst split
    obtain ⟨low,-,length⟩ := stacked.strings p admitted.pushed ran
    have short := admitted.short s (List.mem_append_right _ List.mem_cons_self)
    have count := admitted.pushed.count
    exact ⟨(up16_le (show pgsize % 16 = 0 by decide) short).trans (by omega),by omega⟩
  · rw [base] at ran
    obtain ⟨low,-,length⟩ := stacked.strings p admitted ran
    have count := admitted.count
    have most : maxarg * 8 ≤ pgsize := by decide
    exact ⟨(up16_le (show pgsize % 16 = 0 by decide) (by omega)).trans (by omega),by omega⟩
  · rw [base]
    obtain ⟨r',m2,page2,ran',pushes,-⟩ := pushArguments_pushes p stacked admitted
    rw [ran] at ran'
    cases ran'
    refine ⟨pushes.frames,fun k past => ?_⟩
    rw [← pushes.entry,pushes.stacked.page_eq,pushes.entry,stacked.page_eq]
    exact pushes.inside k (by rw [show userstack * pgsize = pgsize from Nat.one_mul pgsize] at past; exact past)

/-! When it has been made. -/

/-- What a process finds that has been started with these arguments: sp and a1 are the
address of an array of pointers that ends with 0, each to a string of its own. -/
structure Passed (argv : List (List Byte)) (m : Memory) (q : Proc) (frame : Page) (r : Int) : Prop where
  argc : r = argv.length
  a1 : get64 frame a1Index = get64 frame spIndex
  aligned : (get64 frame spIndex).toNat % 16 = 0
  pointers : ∃ pointers : List Nat, pointers.length = argv.length ∧
    (∀ i a, (pointers ++ [0])[i]? = some a → ∀ k < 8,
      m.view q ((get64 frame spIndex).toNat + 8 * i + k) = some ((BitVec.ofNat 64 a).extractLsb' (8 * k) 8)) ∧
    (∀ (i a : Nat) (s : List Byte), pointers[i]? = some a → argv[i]? = some s → (∀ k ≤ s.length, m.view q (a + k) = (s ++ [0])[k]?) ∧
      (get64 frame spIndex).toNat + 8 * (argv.length + 1) ≤ a ∧ a + (s.length + 1) ≤ q.sz) ∧
    ∀ (i j a b : Nat) (s : List Byte), i < j → pointers[i]? = some a → pointers[j]? = some b → argv[j]? = some s → b + (s.length + 1) ≤ a

theorem view_stack {q : Proc} {qown : Frame → Option Place} (resident : Resident m q qown) (below : n + 1 < userPages)
    (leaf : m.leaf q.pagetable (n + 1) = some ((blank pteW).1,page)) {va : Nat} (low : (n + 1) * pgsize ≤ va) (high : va < (n + 2) * pgsize) :
    m.view q va = some (page (va - (n + 1) * pgsize)) := by
  have place : va / pgsize = n + 1 ∧ va % pgsize = va - (n + 1) * pgsize := by
    simp only [pgsize] at *
    omega
  rw [resident.view_leaf (by rw [place.1]; exact below),place.1,leaf,place.2]
  exact if_pos (show (blank pteW).1 &&& pteU ≠ 0 by decide)

theorem getD_bytes64 {words : List Nat} {i a k : Nat} (there : words[i]? = some a) (short : k < 8) :
    (bytes64 words).getD (8 * i + k) 0 = (BitVec.ofNat 64 a).extractLsb' (8 * k) 8 := by
  obtain ⟨inside,-⟩ := List.getElem?_eq_some_iff.mp there
  have row : (8 * i + k) / 8 = i ∧ (8 * i + k) % 8 = k := by omega
  rw [List.getD_eq_getElem?_getD,bytes64,List.getElem?_map,List.getElem?_range (by omega),Option.map_some,Option.getD_some,row.1,row.2,
    List.getD_eq_getElem?_getD,there,Option.getD_some]

theorem stackPage_array {base i a k : Nat} (there : (addresses (base + pgsize) argv ++ [0])[i]? = some a) (short : k < 8) :
    stackPage base argv page (pgsize - used argv - up16 ((argv.length + 1) * 8) + (8 * i + k)) = (BitVec.ofNat 64 a).extractLsb' (8 * k) 8 := by
  have index : i < argv.length + 1 := by
    have bound := (List.getElem?_eq_some_iff.mp there).1
    rwa [List.length_append,length_addresses,List.length_singleton] at bound
  unfold stackPage
  rw [copyAt,if_pos,Nat.add_sub_cancel_left,getD_bytes64 there short]
  rw [length_bytes64,List.length_append,length_addresses,List.length_singleton]
  omega

theorem stackPage_string {base i a k : Nat} {s : List Byte} (fits : Fits argv) (there : (addresses (base + pgsize) argv)[i]? = some a)
    (string : argv[i]? = some s) (inside : k ≤ s.length) : stackPage base argv page (a - base + k) = (s ++ [0]).getD k 0 := by
  unfold Fits at fits
  rw [show userstack * pgsize = pgsize from Nat.one_mul pgsize] at fits
  have bounds := addresses_bounds there string (by omega)
  unfold stackPage
  rw [copyAt,if_neg,written_string (by omega) there string inside]
  rw [length_bytes64,List.length_append,length_addresses,List.length_singleton]
  have array : (argv.length + 1) * 8 ≤ up16 ((argv.length + 1) * 8) := by
    simp only [up16]
    omega
  omega

theorem Enters.passed {entry : BitVec 64} {leaves : Nat → Option (Pte × Page)} {outcome : Outcome}
    (enters : Enters m₀ caller own path argv entry n leaves outcome pt cown) :
    Passed argv outcome.memory outcome.caller.task.proc (outcome.memory.page outcome.caller.task.trapframe) outcome.r := by
  have resident := enters.committed.resident
  have fits := enters.fits
  have room := fits
  unfold Fits at room
  rw [show userstack * pgsize = pgsize from Nat.one_mul pgsize] at room
  have size : (n + 2) * pgsize = (n + 1) * pgsize + pgsize := Nat.succ_mul (n + 1) pgsize
  have top := npages_user resident.sz
  rw [show (⟨pt,(n + 2) * pgsize⟩ : Proc).sz = (n + 2) * pgsize from rfl,npages_mul] at top
  have small : (n + 2) * pgsize < 2^64 := Nat.lt_of_le_of_lt (show (n + 2) * pgsize ≤ trapframe from resident.sz) (by decide)
  have array : (argv.length + 1) * 8 ≤ up16 ((argv.length + 1) * 8) := by
    simp only [up16]
    omega
  have leaf : outcome.memory.leaf pt (n + 1) = some ((blank pteW).1,stackPage ((n + 1) * pgsize) argv fun _ => 0) := by
    rw [enters.leaves _ (by omega),withStack,if_neg (by omega),if_pos rfl]
  have trapframe : get64 (outcome.memory.page outcome.caller.task.trapframe) a1Index = BitVec.ofNat 64 (stackPointer n argv) ∧
      get64 (outcome.memory.page outcome.caller.task.trapframe) spIndex = BitVec.ofNat 64 (stackPointer n argv) := by
    rw [enters.process]
    refine ⟨?_,?_⟩
    · rw [enters.committed.frame,entered,get64_set64_ne _ _ (by decide),get64_set64_ne _ _ (by decide),get64_set64_same]
    · rw [enters.committed.frame,entered,get64_set64_same]
  have sp : (BitVec.ofNat 64 (stackPointer n argv)).toNat = (n + 1) * pgsize + (pgsize - used argv - up16 ((argv.length + 1) * 8)) := by
    rw [BitVec.toNat_ofNat,Nat.mod_eq_of_lt] <;> unfold stackPointer <;> omega
  refine ⟨enters.r,trapframe.1.trans trapframe.2.symm,?_,addresses ((n + 1) * pgsize + pgsize) argv,length_addresses _ _,fun i a there k short => ?_,
    fun i a s there string => ⟨fun k inside => ?_,?_,?_⟩,fun i j a b s order first second string => ?_⟩
  · have aligned : pgsize % 16 = 0 := by decide
    have base : (n + 1) * pgsize % 16 = 0 := by rw [Nat.mul_mod]; exact Nat.zero_mod 16
    have strings := used_aligned argv
    have pointers : up16 ((argv.length + 1) * 8) % 16 = 0 := Nat.mul_mod_left ..
    rw [trapframe.2,sp]
    omega
  · have index : i < argv.length + 1 := by
      have bound := (List.getElem?_eq_some_iff.mp there).1
      rwa [List.length_append,length_addresses,List.length_singleton] at bound
    rw [trapframe.2,sp,enters.process]
    refine (view_stack resident (by omega) leaf (by omega) (by omega)).trans (congrArg some ?_)
    rw [← stackPage_array there short]
    congr 1
    omega
  · have bounds := addresses_bounds there string (by omega)
    rw [enters.process]
    refine (view_stack resident (by omega) leaf (by omega) (by omega)).trans ?_
    have length : k < (s ++ [0]).length := by rw [List.length_append,List.length_singleton]; omega
    rw [show a + k - (n + 1) * pgsize = a - (n + 1) * pgsize + k by omega,stackPage_string fits there string inside,
      List.getD_eq_getElem?_getD,List.getElem?_eq_getElem length]
    rfl
  · have bounds := addresses_bounds there string (by omega)
    rw [trapframe.2,sp]
    omega
  · have bounds := addresses_bounds there string (by omega)
    rw [enters.process]
    exact bounds.2.trans (Nat.le_of_eq size.symm)
  · exact addresses_apart order first second string (by omega)

/-! From the call of kexec. -/

theorem Reaches.stacked {m : Memory} (reaches : Reaches m₀ caller trampolinePage file elf pt sz m)
    (running : Running m₀ caller trampolinePage own) (short : file.length < 2^32) :
    ∃ n cown, sz = (n + 2) * pgsize ∧ Stacked m₀ (trapEntries trampolinePage caller.task.trapframe) pt n m cown fun _ => 0 := by
  obtain ⟨m1,sz2,m2,made,ran,stack⟩ := reaches.loads
  obtain ⟨cown,loading⟩ := running.start made reaches.real
  obtain ⟨ok,sz3,m3,cown3,ran',-,loads⟩ := loading.loadSegments running.pages short elf.phnum.toNat (elf.phoff.setWidth 32)
  rw [ran] at ran'
  cases ran'
  obtain ⟨loading2,-⟩ := loads rfl
  obtain ⟨rounded,loading3⟩ := loading2.roundUp running.pages
  obtain ⟨r,m4,cown4,made4,-,makes⟩ := loading3.makeStack running.pages
  rw [rounded,made4] at stack
  cases stack
  obtain ⟨size,stacked,-⟩ := makes sz rfl
  exact ⟨npages sz2,cown4,size,stacked⟩

/-- The arguments of exec are passed on: the stack is made safely, it fails exactly if
the arguments do not fit into it, and otherwise the new program finds them. -/
theorem exec_passes_arguments {m : Memory} (running : Running m₀ caller trampolinePage own) (admitted : Admitted argv) (path : List Byte)
    (short : file.length < 2^32) (reaches : Reaches m₀ caller trampolinePage file elf pt sz m) :
    Safe m caller.task.proc pt sz argv ∧ ∃ outcome, kexec m₀ caller trampolinePage path (some file) argv = .ok outcome ∧
      (outcome.r = -1 ↔ ¬Fits argv) ∧
      (outcome.r ≠ -1 → Passed argv outcome.memory outcome.caller.task.proc (outcome.memory.page outcome.caller.task.trapframe) outcome.r) := by
  obtain ⟨n,cown,rfl,stacked⟩ := reaches.stacked running short
  refine ⟨stacked.safe caller.task.proc admitted,?_⟩
  obtain ⟨outcome,ran,-,result,exactly⟩ := kexec_runs running admitted path (some file) fun file' same => by cases same; exact short
  refine ⟨outcome,ran,exactly file elf pt _ m rfl reaches,fun success => ?_⟩
  rcases result with fails | ⟨file',elf',pt',cown',-,succeeds⟩
  · exact absurd fails.r success
  · exact succeeds.enters.passed

theorem exec_passes_arguments_one : ∃ m own outcome, Running m shell 0 own ∧ kexec m shell 0 [] (some plain) [[0x61]] = .ok outcome ∧
    Passed [[0x61]] outcome.memory outcome.caller.task.proc (outcome.memory.page outcome.caller.task.trapframe) outcome.r := by
  have admitted : Admitted [[0x61]] := ⟨by decide,by decide,by decide⟩
  obtain ⟨m,own,elf,pt,sz,m1,running,reaches⟩ := sample_reaches (show loadsSample plain = true by decide +kernel)
  obtain ⟨-,outcome,ran,fails,passed⟩ := exec_passes_arguments running admitted [] (by decide +kernel) reaches
  exact ⟨m,own,outcome,running,ran,passed fun failed => fails.mp failed (by decide)⟩

end Xv6.Exec
