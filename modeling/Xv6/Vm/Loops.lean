import Xv6.Vm.Copies

/-! The loops of copyin and copyout, a page in each turn. -/
namespace Xv6.Vm
open Lib.Bytes List

variable {m m' : Memory} {p : Proc} {own own' : Frame → Option Place}

def Accesses (p : Proc) (va len : Nat) (m : Memory) (own : Frame → Option Place) (m' : Memory) (f : Frame) : Prop :=
  (f ∈ m.freelist ∨ ∃ v, own f = some (.user v)) ∧
    ∃ w, (va ≤ w ∧ w < va + len) ∧ m'.walkaddr p.pagetable (pgrounddown w) = f ∧ f ≠ 0

def Stays (p : Proc) (m m' : Memory) : Prop :=
  ∀ w < maxva, m.entry p.pagetable w &&& pteV ≠ 0 → m'.entry p.pagetable w = m.entry p.pagetable w

theorem Stays.walkaddr (stays : Stays p m m') (shape : AddressSpace m p own) {w : Nat} {f : Frame}
    (found : m.walkaddr p.pagetable w = f) (some : f ≠ 0) : m'.walkaddr p.pagetable w = f := by
  have low : w < maxva := by
    by_contra high
    rw [m.walkaddr_high (Nat.not_lt.mp high)] at found
    exact some found.symm
  have valid := ((shape.walkaddr_ne low).mp (by rw [found]; exact some)).1
  rw [← found,Memory.walkaddr_entry _ low,Memory.walkaddr_entry _ low,stays w low valid]

/-- What a copy has left behind, whether it failed or not. -/
structure Leaves (p : Proc) (va len : Nat) (m : Memory) (own : Frame → Option Place) (pages : List Frame) (m' : Memory)
    (own' : Frame → Option Place) : Prop where
  shape : AddressSpace m' p own'
  confined : Confined m m' own own' pages
  stays : Stays p m m'
  pages : ∀ f ∈ pages, Accesses p va len m own m' f

section
variable {va len n : Nat} {pa0 : Frame} {m1 m2 : Memory} {own1 : Frame → Option Place} {pages : List Frame}

theorem Serves.stops (serves : Serves p (pgrounddown va) m own pa0 m' own') : Leaves p va len m own [] m' own' :=
  ⟨serves.shape,serves.confined,serves.stays,nofun⟩

theorem AddressSpace.leaves_refl (shape : AddressSpace m p own) : Leaves p va len m own [] m own :=
  ⟨shape,.refl m own,fun _ _ _ => rfl,nofun⟩

/-- One page has been accessed, and the other turns have left the rest. -/
theorem Serves.leaves (serves : Serves p (pgrounddown va) m own pa0 m1 own1) (found : pa0 ≠ 0) (some : 0 < len)
    (chunk : n = min (pgsize - (va - pgrounddown va)) len)
    (confined2 : Confined m1 m2 own1 own1 [pa0]) (entries : ∀ w, m2.entry p.pagetable w = m1.entry p.pagetable w)
    (free : m2.freelist = m1.freelist)
    (rest : Leaves p (pgrounddown va + pgsize) (len - n) m2 own1 pages m' own') : Leaves p va len m own (pa0 :: pages) m' own' := by
  have stays : Stays p m1 m' := by
    intro w low valid
    rw [rest.stays w low (by rw [entries]; exact valid),entries]
  refine ⟨rest.shape,(serves.confined.trans confined2).trans rest.confined,fun w low valid => ?_,fun f member => ?_⟩
  · have same := serves.stays w low valid
    rw [stays w low (by rw [same]; exact valid),same]
  · rcases mem_cons.mp member with rfl | later
    · refine ⟨(serves.page found).imp id fun place => ⟨_,place⟩,va,by omega,?_,found⟩
      exact stays.walkaddr serves.shape (serves.mapped found) found
    · obtain ⟨whose,w,inside,mapped,nonzero⟩ := rest.pages f later
      refine ⟨?_,w,(mem_chunk chunk w).mpr (.inr inside),mapped,nonzero⟩
      rcases whose with fresh | ⟨v,place⟩
      · rw [free] at fresh
        exact .inl (serves.confined.free f fresh)
      · cases before : own f with
        | none =>
          by_cases listed : f ∈ m.freelist
          · exact .inl listed
          · rw [serves.confined.fresh f before listed] at place
            cases place
        | some place' =>
          rw [serves.confined.keeps f place' before] at place
          exact .inr ⟨v,place⟩

end

/-! copyout. -/

theorem mod_page {va w : Nat} (same : w / pgsize = va / pgsize) : w % pgsize = w - pgrounddown va := by
  have split := Nat.div_add_mod w pgsize
  rw [same,Nat.mul_comm] at split
  rw [pgrounddown]
  omega

theorem view_mapped {va w : Nat} {pa0 : Frame} (mapped : m.walkaddr p.pagetable (pgrounddown va) = pa0) (found : pa0 ≠ 0)
    (same : w / pgsize = va / pgsize) : m.view p w = some (m.page pa0 (w - pgrounddown va)) := by
  have here : pgrounddown w = pgrounddown va := by rw [pgrounddown,pgrounddown,same]
  rw [Memory.view,here,mapped,if_pos found,mod_page same]

theorem Stored.chunk {va n : Nat} {pa0 : Frame} {src : List Byte} {m1 m2 : Memory} {own1 : Frame → Option Place}
    (mapped : m1.walkaddr p.pagetable (pgrounddown va) = pa0) (found : pa0 ≠ 0)
    (chunk : n = min (pgsize - (va - pgrounddown va)) src.length)
    (stored : Stored p (pgrounddown va) m1 own1 (copyAt (m1.page pa0) (va - pgrounddown va) (src.take n)) m2) (w : Nat) :
    m2.view p w = if va ≤ w ∧ w < va + n then src[w - va]? else m1.view p w := by
  have bounds := pgrounddown_le va
  have length : (src.take n).length = n := by
    rw [length_take]
    omega
  rw [stored.view,pgrounddown_div]
  by_cases same : w / pgsize = va / pgsize
  · have within := (page_iff va w).mp same
    rw [if_pos same,mod_page same,copyAt,length]
    by_cases inside : va ≤ w ∧ w < va + n
    · grind [pgrounddown]
    · rw [if_neg (by omega),if_neg inside,view_mapped mapped found same]
  · rw [if_neg same,if_neg fun inside => same (chunk_page chunk inside)]

/-- copyout, from any point of its loop on. -/
structure CopiedOut (p : Proc) (va : Nat) (src : List Byte) (m : Memory) (own : Frame → Option Place) (ok : Bool)
    (pages : List Frame) (m' : Memory) (own' : Frame → Option Place) : Prop where
  leaves : Leaves p va src.length m own pages m' own'
  done : ok = true ↔ m.grants p true va src.length
  written : ok = true → ∀ w, m'.view p w = if va ≤ w ∧ w < va + src.length then src[w - va]? else m.view p w
  outside : ∀ w, ¬(va ≤ w ∧ w < va + src.length) → m'.view p w = m.view p w

section
variable {va : Nat} {src : List Byte}

theorem copiedOut_nil (shape : AddressSpace m p own) : CopiedOut p va [] m own true [] m own := by
  refine ⟨shape.leaves_refl,⟨fun _ => ⟨fun w low high => ?_,?_⟩,fun _ => rfl⟩,fun _ w => ?_,fun _ _ => rfl⟩
  · rw [length_nil] at high
    omega
  · rw [pagesOf,length_nil,Nat.add_zero,Finset.Ico_self,Finset.image_empty]
    exact Nat.zero_le _
  · rw [if_neg (by rw [length_nil]; omega)]

theorem CopiedOut.fails {pages : List Frame} (leaves : Leaves p va src.length m own pages m' own')
    (refused : ¬m.grants p true va src.length) (view : ∀ w, m'.view p w = m.view p w) :
    CopiedOut p va src m own false pages m' own' :=
  ⟨leaves,⟨nofun,fun granted => absurd granted refused⟩,nofun,fun w _ => view w⟩

theorem copyoutFrom_copies (shape : AddressSpace m p own) {turns : Nat} (enough : src.length ≤ turns) :
    ∃ ok pages m' own', Memory.copyoutFrom p p.pagetable turns va src m = .ok (ok,pages,m') ∧
      CopiedOut p va src m own ok pages m' own' := by
  induction turns generalizing va src m own with
  | zero =>
    obtain rfl : src = [] := eq_nil_of_length_eq_zero (by omega)
    exact ⟨true,[],m,own,rfl,copiedOut_nil shape⟩
  | succ turns ih =>
    rw [Memory.copyoutFrom]
    by_cases empty : src = []
    · rw [if_pos empty,empty]
      exact ⟨true,[],m,own,rfl,copiedOut_nil shape⟩
    rw [if_neg empty]
    have some : 0 < src.length := length_pos_iff.mpr empty
    dsimp only
    by_cases high : maxva ≤ pgrounddown va
    · rw [if_pos high]
      refine ⟨false,[],m,own,rfl,.fails shape.leaves_refl (fun granted => ?_) fun _ => rfl⟩
      have low := (granted.1 va (Nat.le_refl _) (by omega)).1
      omega
    rw [if_neg high]
    obtain ⟨pa0,m1,own1,served,serves⟩ := shape.serves (pgrounddown_aligned va)
    rw [served]
    change ∃ ok pages m' own', (if pa0 = 0 then _ else _) = _ ∧ _
    by_cases none : pa0 = 0
    · rw [if_pos none]
      rw [none] at serves
      exact ⟨false,[],m1,own1,rfl,.fails serves.stops (serves.refuses some) serves.view⟩
    rw [if_neg none]
    have mapped := serves.mapped none
    have low : pgrounddown va < maxva := Nat.not_le.mp high
    obtain ⟨valid,-⟩ := (serves.shape.walkaddr_ne low).mp (by rw [mapped]; exact none)
    rw [m1.walk_false p.pagetable low]
    have entry : m1.entry p.pagetable (pgrounddown va) =
        ((m1.tableFrom (pgrounddown va) 2 p.pagetable).map fun t => m1.pte t (px 0 (pgrounddown va))).getD 0 := rfl
    cases table : m1.tableFrom (pgrounddown va) 2 p.pagetable with
    | none =>
      rw [entry,table] at valid
      exact absurd BitVec.zero_and valid
    | some t =>
      rw [table] at entry
      change m1.entry p.pagetable (pgrounddown va) = m1.pte t (px 0 (pgrounddown va)) at entry
      change ∃ ok pages m' own', (if m1.pte t (px 0 (pgrounddown va)) &&& pteW = 0 then _ else _) = _ ∧ _
      rw [← entry]
      have writable := serves.writable none
      by_cases readonly : m1.entry p.pagetable (pgrounddown va) &&& pteW = 0
      · rw [if_pos readonly]
        refine ⟨false,[],m1,own1,rfl,.fails serves.stops (fun granted => ?_) serves.view⟩
        obtain ⟨invalid,noWrite⟩ := not_or.mp fun either => writable.mpr either readonly
        rcases (granted.1 va (Nat.le_refl _) (by omega)).2 with ⟨-,-,write⟩ | ⟨lazy,-⟩
        · exact noWrite (write rfl)
        · exact invalid lazy
      · rw [if_neg readonly]
        generalize chunk : min (pgsize - (va - pgrounddown va)) src.length = n
        have allowed : m.allows p true va := by
          obtain ⟨⟨low',rest⟩,-⟩ := serves.found.mp none
          rw [pgrounddown_idem] at low' rest
          refine ⟨low',rest.imp (fun ⟨valid,user,_⟩ => ⟨valid,user,fun _ => ?_⟩) id⟩
          exact (writable.mp readonly).resolve_left valid
        obtain ⟨stored,confined⟩ := serves.shape.store (pgrounddown_aligned va) low (by rw [mapped]; exact none)
          (copyAt (m1.page pa0) (va - pgrounddown va) (src.take n))
        rw [mapped] at stored confined
        have step := pgrounddown_le va
        have wide : maxva + pgsize < 2 ^ 64 := by decide
        have next : (pgrounddown va + pgsize) % 2 ^ 64 = pgrounddown va + pgsize := Nat.mod_eq_of_lt (by omega)
        have positive : 0 < n := by omega
        obtain ⟨ok,pages,m',own',ran,copied⟩ := @ih (m1.setPage pa0 _) own1 (pgrounddown va + pgsize) (src.drop n) stored.shape
          (by rw [length_drop]; omega)
        rw [next,ran]
        have leaves := copied.leaves
        rw [length_drop] at leaves
        have view := stored.chunk mapped none chunk.symm
        refine ⟨ok,pa0 :: pages,m',own',rfl,
          serves.leaves none some chunk.symm confined stored.entries stored.free leaves,?_,fun done w => ?_,fun w outside => ?_⟩
        · rw [copied.done,length_drop]
          exact (serves.grants none allowed stored.entries stored.cost stored.free some chunk.symm).symm
        · grind [copied.written,serves.view,chunk.symm]
        · grind [chunk.symm,copied.outside,serves.view]

end

/-! copyin. -/

/-- copyin, from any point of its loop on: also if it fails, the bytes that it has
stored are those that the user sees. -/
structure CopiedIn (p : Proc) (va len : Nat) (m : Memory) (own : Frame → Option Place) (ok : Bool) (bytes : List Byte)
    (pages : List Frame) (m' : Memory) (own' : Frame → Option Place) : Prop where
  leaves : Leaves p va len m own pages m' own'
  done : ok = true ↔ m.grants p false va len
  short : bytes.length ≤ len
  whole : ok = true → bytes.length = len
  bytes : bytes.map some = (range bytes.length).map fun k => m.view p (va + k)
  view : ∀ w, m'.view p w = m.view p w

section
variable {va len : Nat}

theorem copiedIn_nil (shape : AddressSpace m p own) : CopiedIn p va 0 m own true [] [] m own := by
  refine ⟨shape.leaves_refl,⟨fun _ => ⟨fun w low high => by omega,?_⟩,fun _ => rfl⟩,Nat.le_refl _,fun _ => rfl,rfl,fun _ => rfl⟩
  rw [pagesOf,Nat.add_zero,Finset.Ico_self,Finset.image_empty]
  exact Nat.zero_le _

theorem copyinFrom_copies (shape : AddressSpace m p own) {turns : Nat} (enough : len ≤ turns) :
    ∃ ok bytes pages m' own', Memory.copyinFrom p p.pagetable turns va len m = .ok (ok,bytes,pages,m') ∧
      CopiedIn p va len m own ok bytes pages m' own' := by
  induction turns generalizing va len m own with
  | zero =>
    obtain rfl : len = 0 := by omega
    exact ⟨true,[],[],m,own,rfl,copiedIn_nil shape⟩
  | succ turns ih =>
    rw [Memory.copyinFrom]
    by_cases empty : len = 0
    · rw [if_pos empty,empty]
      exact ⟨true,[],[],m,own,rfl,copiedIn_nil shape⟩
    rw [if_neg empty]
    obtain ⟨pa0,m1,own1,served,serves⟩ := shape.serves (pgrounddown_aligned va)
    dsimp only
    rw [served]
    change ∃ ok bytes pages m' own', (if pa0 = 0 then _ else _) = _ ∧ _
    by_cases none : pa0 = 0
    · rw [if_pos none]
      rw [none] at serves
      exact ⟨false,[],[],m1,own1,rfl,serves.stops,⟨nofun,fun granted => absurd granted (serves.refuses (by omega))⟩,
        Nat.zero_le _,nofun,rfl,serves.view⟩
    rw [if_neg none]
    generalize chunk : min (pgsize - (va - pgrounddown va)) len = n
    have mapped := serves.mapped none
    have allowed : m.allows p false va := by
      have allowed := (serves.found.mp none).1
      rwa [allows_page (pgrounddown_idem va)] at allowed
    have step := pgrounddown_le va
    have wide : maxva + pgsize < 2 ^ 64 := by decide
    have low := allowed.1
    have next : (pgrounddown va + pgsize) % 2 ^ 64 = pgrounddown va + pgsize := Nat.mod_eq_of_lt (by omega)
    have positive : 0 < n := by omega
    obtain ⟨ok,rest,pages,m',own',ran,copied⟩ := @ih m1 own1 (pgrounddown va + pgsize) (len - n) serves.shape (by omega)
    rw [next,ran]
    have still : Confined m1 m1 own1 own1 [pa0] := ⟨fun _ _ => id,fun _ none _ => none,fun _ => id,fun _ _ _ _ => rfl⟩
    have first : (range n).map (fun k => some (m1.page pa0 (va - pgrounddown va + k))) =
        (range n).map fun k => m.view p (va + k) := by
      refine map_congr_left fun k member => ?_
      have small := mem_range.mp member
      rw [← serves.view,view_mapped mapped none (chunk_page chunk.symm ⟨Nat.le_add_right va k,by omega⟩),
        show va + k - pgrounddown va = va - pgrounddown va + k by omega]
    have length : ((range n).map fun k => m1.page pa0 (va - pgrounddown va + k)).length = n := by
      rw [length_map,length_range]
    refine ⟨ok,((range n).map fun k => m1.page pa0 (va - pgrounddown va + k)) ++ rest,pa0 :: pages,m',own',rfl,
      serves.leaves none (by omega) chunk.symm still (fun _ => rfl) rfl copied.leaves,?_,?_,fun done => ?_,?_,fun w => ?_⟩
    · rw [copied.done]
      exact (serves.grants none allowed (fun _ => rfl) (fun _ => rfl) rfl (by omega) chunk.symm).symm
    · have short := copied.short
      rw [length_append,length]
      omega
    · have whole := copied.whole done
      rw [length_append,length]
      omega
    · rw [map_append,copied.bytes,map_map,length_append,length,range_add,map_append,map_map]
      refine congrArg₂ (· ++ ·) first (map_congr_left fun k member => ?_)
      have small := mem_range.mp member
      have short := copied.short
      change m1.view p (pgrounddown va + pgsize + k) = m.view p (va + (n + k))
      rw [serves.view,show pgrounddown va + pgsize + k = va + (n + k) by omega]
    · rw [copied.view,serves.view]

end

/-! The whole calls. -/

/-- What a call has to do with the pages of memory, whether it fails or not: every
page that it reads or writes is mapped with PTE_U at an address of the range. Other
pages keep their contents, unless they were free or are page tables of the process;
in particular so do pages that belong to nobody here, such as those of another
process, and the pages of the trapframe and the trampoline. -/
structure Contained (p : Proc) (va len : Nat) (m : Memory) (own : Frame → Option Place) (pages : List Frame) (m' : Memory) : Prop where
  user : ∀ f ∈ pages, ∃ w, (va ≤ w ∧ w < va + len) ∧ w < maxva ∧ m'.entry p.pagetable w &&& pteV ≠ 0 ∧
    m'.entry p.pagetable w &&& pteU ≠ 0 ∧ pte2pa (m'.entry p.pagetable w) = f
  others : ∀ f, f ∉ pages → f ∉ m.freelist → (∀ path, own f ≠ some (.table path)) → m'.page f = m.page f
  foreign : ∀ f, own f = none → f ∉ m.freelist → f ∉ pages ∧ m'.page f = m.page f
  traps : ∀ w, w = trapframe ∨ w = trampoline →
    pte2pa (m.entry p.pagetable w) ∉ pages ∧ m'.page (pte2pa (m.entry p.pagetable w)) = m.page (pte2pa (m.entry p.pagetable w))

theorem Leaves.contained {va len : Nat} {pages : List Frame} (leaves : Leaves p va len m own pages m' own')
    (shape : AddressSpace m p own) : Contained p va len m own pages m' := by
  have foreign : ∀ f, own f = none → f ∉ m.freelist → f ∉ pages ∧ m'.page f = m.page f := by
    intro f nobody out
    have untouched : f ∉ pages := by
      intro member
      rcases (leaves.pages f member).1 with free | ⟨v,place⟩
      · exact out free
      · rw [nobody] at place
        cases place
    exact ⟨untouched,leaves.confined.others f (fun path there => by rw [nobody] at there; cases there) out untouched⟩
  refine ⟨fun f member => ?_,fun f untouched out table => leaves.confined.others f table out untouched,foreign,fun w trap => ?_⟩
  · obtain ⟨-,w,inside,mapped,nonzero⟩ := leaves.pages f member
    have low : pgrounddown w < maxva := by
      by_contra high
      rw [Memory.walkaddr_high _ (Nat.not_lt.mp high)] at mapped
      exact nonzero mapped.symm
    have same : m'.entry p.pagetable w = m'.entry p.pagetable (pgrounddown w) := entry_page (pgrounddown_div w).symm
    obtain ⟨valid,user⟩ := (leaves.shape.walkaddr_ne low).mp (by rw [mapped]; exact nonzero)
    rw [Memory.walkaddr_entry _ low,if_neg valid,if_neg user] at mapped
    refine ⟨w,inside,?_,by rw [same]; exact valid,by rw [same]; exact user,by rw [same]; exact mapped⟩
    have bounds := pgrounddown_le w
    have multiple : pgrounddown w + pgsize ≤ maxva := by
      rw [pgrounddown] at low ⊢
      unfold pgsize maxva at *
      omega
    omega
  · obtain ⟨-,-,nobody,out⟩ := shape.traps w trap
    exact foreign _ nobody out

/-- copyin and copyout implement the user's view of memory. Both return 0 exactly if
every page of the range is allowed and kalloc has the pages that are missing, and
they never panic. copyout then replaces the range in what the user sees, and copyin
yields it. On failure only bytes inside the range have changed. -/
theorem copies_implement_view (shape : AddressSpace m p own) (va : Nat) :
    (∀ src : List Byte, ∃ ok pages m' own', m.copyout p p.pagetable va src = .ok (ok,pages,m') ∧
      (ok = true ↔ m.grants p true va src.length) ∧
      (ok = true → ∀ w, m'.view p w = if va ≤ w ∧ w < va + src.length then src[w - va]? else m.view p w) ∧
      (∀ w, ¬(va ≤ w ∧ w < va + src.length) → m'.view p w = m.view p w) ∧
      Contained p va src.length m own pages m' ∧ AddressSpace m' p own') ∧
    (∀ len : Nat, ∃ ok bytes pages m' own', m.copyin p p.pagetable va len = .ok (ok,bytes,pages,m') ∧
      (ok = true ↔ m.grants p false va len) ∧ (ok = true → bytes.length = len) ∧
      bytes.map some = (List.range bytes.length).map (fun k => m.view p (va + k)) ∧
      (∀ w, m'.view p w = m.view p w) ∧ Contained p va len m own pages m' ∧ AddressSpace m' p own') := by
  refine ⟨fun src => ?_,fun len => ?_⟩
  · obtain ⟨ok,pages,m',own',ran,copied⟩ := @copyoutFrom_copies m p own va src shape _ (Nat.le_refl _)
    exact ⟨ok,pages,m',own',ran,copied.done,copied.written,copied.outside,copied.leaves.contained shape,copied.leaves.shape⟩
  · obtain ⟨ok,bytes,pages,m',own',ran,copied⟩ := @copyinFrom_copies m p own va len shape _ (Nat.le_refl _)
    exact ⟨ok,bytes,pages,m',own',ran,copied.done,copied.whole,copied.bytes,copied.view,copied.leaves.contained shape,
      copied.leaves.shape⟩

def young : Memory where
  page
    | 1 => set64 (fun _ => 0) 255 (pa2pte 2 ||| pteV)
    | 2 => set64 (fun _ => 0) 511 (pa2pte 3 ||| pteV)
    | 3 => set64 (set64 (fun _ => 0) 510 (pa2pte 4 ||| (pteR ||| pteW) ||| pteV)) 511 (pa2pte 5 ||| (pteR ||| pteX) ||| pteV)
    | _ => fun _ => 0
  freelist := [6,7,8]
  first := 1
  last := 9

def youngProc : Proc := ⟨1,pgsize⟩

def youngOwn : Frame → Option Place
  | 1 => some (.table [])
  | 2 => some (.table [255])
  | 3 => some (.table [255,511])
  | _ => none

theorem young_pte (k : Nat) :
    young.pte 1 k = (if k = 255 then pa2pte 2 ||| pteV else 0) ∧ young.pte 2 k = (if k = 511 then pa2pte 3 ||| pteV else 0) ∧
      young.pte 3 k = if k = 511 then pa2pte 5 ||| (pteR ||| pteX) ||| pteV
        else if k = 510 then pa2pte 4 ||| (pteR ||| pteW) ||| pteV else 0 := by
  refine ⟨?_,?_,?_⟩
  · split_ifs with here
    · rw [here]
      exact get64_set64_same ..
    · exact (get64_set64_ne _ _ here).trans (get64_zero k)
  · split_ifs with here
    · rw [here]
      exact get64_set64_same ..
    · exact (get64_set64_ne _ _ here).trans (get64_zero k)
  · split_ifs with last here
    · rw [last]
      exact get64_set64_same ..
    · refine (get64_set64_ne _ _ last).trans ?_
      rw [here]
      exact get64_set64_same ..
    · exact (get64_set64_ne _ _ last).trans ((get64_set64_ne _ _ here).trans (get64_zero k))

theorem youngOwn_table {t : Frame} {path : List Nat} (owned : youngOwn t = some (.table path)) :
    (t = 1 ∧ path = []) ∨ (t = 2 ∧ path = [255]) ∨ (t = 3 ∧ path = [255,511]) := by
  unfold youngOwn at owned
  split at owned <;> cases owned
  · exact .inl ⟨rfl,rfl⟩
  · exact .inr (.inl ⟨rfl,rfl⟩)
  · exact .inr (.inr ⟨rfl,rfl⟩)

theorem young_space : Space young 1 youngOwn := by
  refine ⟨rfl,fun t path k owned shallow _ valid => ?_,fun t i j k owned _ valid user => ?_,by decide,by decide⟩
  · obtain ⟨first,second,-⟩ := young_pte k
    rcases youngOwn_table owned with ⟨rfl,rfl⟩ | ⟨rfl,rfl⟩ | ⟨rfl,rfl⟩
    · rw [first] at valid ⊢
      split_ifs at valid ⊢ with here
      · rw [here]
        rfl
      · exact absurd rfl valid
    · rw [second] at valid ⊢
      split_ifs at valid ⊢ with here
      · rw [here]
        rfl
      · exact absurd rfl valid
    · exact absurd shallow (by decide)
  · obtain ⟨-,-,third⟩ := young_pte k
    rcases youngOwn_table owned with ⟨rfl,bad⟩ | ⟨rfl,bad⟩ | ⟨rfl,-⟩
    · cases bad
    · cases bad
    · rw [third] at user
      split_ifs at user
      · exact absurd (by decide) user
      · exact absurd (by decide) user
      · exact absurd rfl user

theorem young_entry (w : Nat) : young.entry 1 w = if px 2 w = 255 ∧ px 1 w = 511 then young.pte 3 (px 0 w) else 0 := by
  obtain ⟨first,-,-⟩ := young_pte (px 2 w)
  obtain ⟨-,second,-⟩ := young_pte (px 1 w)
  have child : pte2pa (pa2pte 2 ||| pteV) = 2 ∧ pte2pa (pa2pte 3 ||| pteV) = 3 := ⟨pte2pa_table (by decide),pte2pa_table (by decide)⟩
  rw [Memory.entry,Memory.entryFrom_succ,first]
  by_cases top : px 2 w = 255
  · rw [if_pos top,if_pos (valid_or _),child.1,Memory.entryFrom_succ,second]
    by_cases middle : px 1 w = 511
    · rw [if_pos middle,if_pos (valid_or _),child.2,if_pos ⟨top,middle⟩]
      rfl
    · rw [if_neg middle,if_neg (by decide),if_neg fun both => middle both.2]
  · rw [if_neg top,if_neg (by decide),if_neg fun both => top both.1]

theorem young_shape : AddressSpace young youngProc youngOwn := by
  refine ⟨young_space,fun t path owned => ?_,by decide,rfl,by decide,fun w trap => ?_,fun w low valid => ?_⟩
  · rcases youngOwn_table owned with ⟨rfl,rfl⟩ | ⟨rfl,rfl⟩ | ⟨rfl,rfl⟩
    · exact ⟨by decide,by decide,rfl⟩
    · refine ⟨by decide,by decide,?_⟩
      have top := (young_pte 255).1
      rw [if_pos rfl] at top
      change young.reach [255] 1 = _
      rw [Memory.reach,top,if_pos (valid_or _)]
      exact congrArg some (pte2pa_table (by decide))
    · refine ⟨by decide,by decide,?_⟩
      have top := (young_pte 255).1
      have middle := (young_pte 511).2.1
      rw [if_pos rfl] at top middle
      change young.reach [255,511] 1 = _
      rw [Memory.reach,top,if_pos (valid_or _),pte2pa_table (by decide),Memory.reach,middle,if_pos (valid_or _)]
      exact congrArg some (pte2pa_table (by decide))
  · change young.entry 1 w &&& pteV ≠ 0 ∧ young.entry 1 w &&& pteU = 0 ∧ youngOwn (pte2pa (young.entry 1 w)) = none ∧
      pte2pa (young.entry 1 w) ∉ young.freelist
    rcases trap with rfl | rfl
    · have entry : young.entry 1 trapframe = pa2pte 4 ||| (pteR ||| pteW) ||| pteV := by
        rw [young_entry,if_pos (by decide),show px 0 trapframe = 510 by decide]
        exact (young_pte 510).2.2
      rw [entry,pte2pa_pa2pte (by decide) (by decide)]
      exact ⟨valid_or _,by decide,rfl,by decide⟩
    · have entry : young.entry 1 trampoline = pa2pte 5 ||| (pteR ||| pteX) ||| pteV := by
        rw [young_entry,if_pos (by decide),show px 0 trampoline = 511 by decide]
        exact (young_pte 511).2.2
      rw [entry,pte2pa_pa2pte (by decide) (by decide)]
      exact ⟨valid_or _,by decide,rfl,by decide⟩
  · change young.entry 1 w &&& pteV ≠ 0 at valid
    change young.entry 1 w &&& pteR ≠ 0 ∧ _
    have base : ∀ w' < maxva, w / pgsize = w' / pgsize → w' % pgsize = 0 → pgrounddown w = w' := by
      intro w' _ same aligned
      rw [pgrounddown,same]
      exact base_of_aligned aligned
    rw [young_entry] at valid ⊢
    split_ifs at valid ⊢ with path
    · rw [(young_pte _).2.2] at valid ⊢
      split_ifs at valid ⊢ with last here
      · refine ⟨by decide,.inr (.inr (base trampoline (by decide) (same_page low (by decide) ?_ ?_ ?_) (by decide)))⟩
        · rw [path.1]
          decide
        · rw [path.2]
          decide
        · rw [last]
          decide
      · refine ⟨by decide,.inr (.inl (base trapframe (by decide) (same_page low (by decide) ?_ ?_ ?_) (by decide)))⟩
        · rw [path.1]
          decide
        · rw [path.2]
          decide
        · rw [here]
          decide
      · exact absurd rfl valid
    · exact absurd rfl valid

/-- The page and its two tables are the three pages that are left. -/
theorem copies_implement_view_young : AddressSpace young youngProc youngOwn ∧
    ∃ pages m', young.copyout youngProc 1 0 [7] = .ok (true,pages,m') ∧ young.grants youngProc true 0 1 ∧
      m'.view youngProc 0 = some 7 ∧ young.view youngProc 0 = some 0 := by
  obtain ⟨ok,pages,m',own',ran,done,written,-⟩ := (copies_implement_view young_shape 0).1 [7]
  have value : (young.copyout youngProc 1 0 [7]).toOption.map (fun result => result.1) = some true := by decide +kernel
  have copied : young.copyout youngProc 1 0 [7] = .ok (ok,pages,m') := ran
  rw [copied] at value
  obtain rfl : ok = true := Option.some.inj value
  refine ⟨young_shape,pages,m',copied,done.mp rfl,?_,?_⟩
  · rw [written rfl]
    rfl
  · rw [Memory.view]
    decide +kernel

end Xv6.Vm
