import Xv6.Log.Model
import Mathlib.Data.List.Basic
import Mathlib.Tactic.Linarith

/-! Crash atomicity of the redo log. The commit is followed write by write: up
to the first header write the home area is untouched and the header is clear;
from then on the log holds the whole transaction, and installing it, partially,
repeatedly or completely, leads to the same home area. -/
namespace Xv6.Log
open Lib.Bytes Function List

@[simp] theorem applyWrites_nil (disk : Disk) : applyWrites [] disk = disk := rfl

@[simp] theorem applyWrites_append (first second : List (Nat × Block)) (disk : Disk) :
    applyWrites (first ++ second) disk = applyWrites second (applyWrites first disk) := by
  simp [applyWrites]

@[simp] theorem applyWrites_singleton (b : Nat) (data : Block) (disk : Disk) :
    applyWrites [(b,data)] disk = update disk b data := rfl

theorem applyWrites_other {writes : List (Nat × Block)} {b : Nat} (disk : Disk)
    (untouched : ∀ write ∈ writes, write.1 ≠ b) : applyWrites writes disk b = disk b := by
  induction writes generalizing disk with
  | nil => rfl
  | cons write writes ih =>
    change applyWrites writes (update disk write.1 write.2) b = disk b
    rw [ih _ (fun w member => untouched w (mem_cons_of_mem _ member))]
    exact update_of_ne (untouched write mem_cons_self).symm _ _

theorem applyWrites_value {writes : List (Nat × Block)} {b : Nat} {data : Block} (disk : Disk)
    (agree : ∀ write ∈ writes, write.1 = b → write.2 = data)
    (present : disk b = data ∨ ∃ write ∈ writes, write.1 = b) : applyWrites writes disk b = data := by
  induction writes generalizing disk with
  | nil =>
    rcases present with here | ⟨write,member,_⟩
    · exact here
    · simp at member
  | cons write writes ih =>
    apply ih
    · intro w member
      exact agree w (mem_cons_of_mem _ member)
    · grind

def sees (k : Kernel) (b : Nat) : Block := (k.buf b).getD (k.disk b)

/-- A buffer that nothing pins holds what is on the disk. -/
def Clean (k : Kernel) : Prop := ∀ b data, k.pins b = 0 → k.buf b = some data → data = k.disk b

structure Wrote (k k' : Kernel) (writes : List (Nat × Block)) : Prop where
  issued : k'.issued = k.issued ++ writes
  disk : k'.disk = applyWrites writes k.disk
  sees : sees k' = applyWrites writes (sees k)
  clean : Clean k → Clean k'
  start : k'.start = k.start

theorem Wrote.refl (k : Kernel) : Wrote k k [] := ⟨by simp,rfl,rfl,id,rfl⟩

theorem Wrote.trans {k k' k'' : Kernel} {first second : List (Nat × Block)} (one : Wrote k k' first)
    (two : Wrote k' k'' second) : Wrote k k'' (first ++ second) := by
  refine ⟨?_,?_,?_,two.clean ∘ one.clean,two.start.trans one.start⟩
  · rw [two.issued,one.issued,append_assoc]
  · rw [two.disk,one.disk,applyWrites_append]
  · rw [two.sees,one.sees,applyWrites_append]

theorem bread_fst (k : Kernel) (b : Nat) : (bread k b).1 = sees k b := by
  unfold bread sees
  cases k.buf b <;> rfl

/-- Reading writes nothing, and recycling a clean buffer changes no contents. -/
theorem bread_wrote {k : Kernel} (clean : Clean k) (b : Nat) : Wrote k (bread k b).2 [] := by
  unfold bread
  cases cached : k.buf b with
  | some data => exact Wrote.refl k
  | none =>
    have recycled (x : Nat) (data : Block)
        (found : (if k.pins (k.recycle k.misses) = 0 then update k.buf (k.recycle k.misses) none
          else k.buf) x = some data) : k.buf x = some data := by
      split_ifs at found with unpinned
      · by_cases victim : x = k.recycle k.misses
        · simp [victim] at found
        · simpa [update_of_ne victim] using found
      · exact found
    refine ⟨by simp,rfl,?_,?_,rfl⟩
    · funext x
      simp only [sees,applyWrites_nil]
      by_cases same : x = b
      · subst same
        simp [cached]
      rw [update_of_ne same]
      split_ifs with unpinned
      · by_cases victim : x = k.recycle k.misses
        · subst victim
          rw [update_self]
          cases held : k.buf (k.recycle k.misses) with
          | none => rfl
          | some data => exact (clean _ data unpinned held).symm
        · rw [update_of_ne victim]
      · rfl
    · grind [Clean,Kernel,Wrote,update_apply]

theorem bwrite_wrote (k : Kernel) (b : Nat) (data : Block) : Wrote k (bwrite k b data) [(b,data)] := by
  refine ⟨rfl,rfl,?_,?_,rfl⟩
  · funext x
    by_cases same : x = b
    · subst same
      simp [sees,bwrite]
    · simp [sees,bwrite,update_of_ne same]
  · intro clean x found unpinned cached
    by_cases same : x = b
    · subst same
      simpa [bwrite] using cached.symm
    · simp only [bwrite,update_of_ne same] at cached ⊢
      exact clean x found unpinned cached

theorem bunpin_wrote {k : Kernel} {b : Nat} (written : sees k b = k.disk b) : Wrote k (bunpin k b) [] := by
  refine ⟨by simp [bunpin],rfl,rfl,?_,rfl⟩
  intro clean x data unpinned cached
  by_cases same : x = b
  · subst same
    have held : k.buf x = some data := cached
    simp only [sees,held,Option.getD_some] at written
    exact written
  · simp only [bunpin,update_of_ne same] at unpinned
    exact clean x data unpinned cached

@[simp] theorem bread_lh (k : Kernel) (b : Nat) : (bread k b).2.lh = k.lh := by
  unfold bread
  cases k.buf b <;> rfl

@[simp] theorem bwrite_lh (k : Kernel) (b : Nat) (data : Block) : (bwrite k b data).lh = k.lh := rfl

@[simp] theorem bunpin_lh (k : Kernel) (b : Nat) : (bunpin k b).lh = k.lh := rfl

theorem clearHead_wrote (k : Kernel) : Wrote k (clearHead k) [] := ⟨by simp [clearHead],rfl,rfl,id,rfl⟩

def HomeSlots (k : Kernel) (tail n : Nat) : Prop :=
  tail + n ≤ logBlocks ∧ ∀ t, tail ≤ t → t < tail + n → ¬ logArea k.start (k.lh.block t).toNat

theorem HomeSlots.tail {k : Kernel} {tail n : Nat} (home : HomeSlots k tail (n + 1)) :
    HomeSlots k (tail + 1) n :=
  ⟨by have := home.1; omega,fun t low high => home.2 t (by omega) (by omega)⟩

def logWrites (k : Kernel) (tail n : Nat) : List (Nat × Block) :=
  (range' tail n).map (fun t => (k.start + t + 1,sees k (k.lh.block t).toNat))

def homeWrites (k : Kernel) (tail n : Nat) : List (Nat × Block) :=
  (range' tail n).map (fun t => ((k.lh.block t).toNat,sees k (k.start + t + 1)))

private theorem update_outside {k : Kernel} {tail n t : Nat} (home : HomeSlots k tail n) (low : tail ≤ t)
    (high : t < tail + n) (slot : Nat) (inside : slot ≤ logBlocks) :
    (k.lh.block t).toNat ≠ k.start + slot := by
  intro equal
  exact home.2 t low high ⟨by omega,by omega⟩

theorem writeLogLoop_wrote (n tail : Nat) (k : Kernel) (clean : Clean k) (home : HomeSlots k tail n) :
    Wrote k (writeLogLoop n tail k) (logWrites k tail n) ∧ (writeLogLoop n tail k).lh = k.lh := by
  induction n generalizing tail k with
  | zero => exact ⟨Wrote.refl k,rfl⟩
  | succ n ih =>
    have first := bread_wrote clean (k.start + tail + 1)
    have second := first.trans (bread_wrote (first.clean clean) (k.lh.block tail).toNat)
    have source : (bread (bread k (k.start + tail + 1)).2 (k.lh.block tail).toNat).1 =
        sees k (k.lh.block tail).toNat := by
      rw [bread_fst,first.sees,applyWrites_nil]
    rw [writeLogLoop]
    simp only [bread_lh]
    rw [source,second.start]
    have third := second.trans (bwrite_wrote _ (k.start + tail + 1) (sees k (k.lh.block tail).toNat))
    simp only [append_nil,nil_append] at third
    generalize stored : bwrite _ (k.start + tail + 1) _ = k' at third ⊢
    have lh : k'.lh = k.lh := by simp [← stored]
    have home' : HomeSlots k' (tail + 1) n := by
      have shorter := home.tail
      simpa only [HomeSlots,lh,third.start] using shorter
    obtain ⟨rest,restLh⟩ := ih (tail + 1) k' (third.clean clean) home'
    refine ⟨?_,restLh.trans lh⟩
    have same : logWrites k' (tail + 1) n = logWrites k (tail + 1) n := by
      apply map_congr_left
      intro t member
      have range := mem_range'_1.mp member
      have apart := update_outside home (by omega : tail ≤ t) (by omega) (tail + 1) (by have := home.1; omega)
      rw [third.start,lh,third.sees,applyWrites_singleton,update_of_ne (by omega)]
    rw [same] at rest
    exact third.trans rest

theorem installTransLoop_wrote (recovering : Bool) (n tail : Nat) (k : Kernel) (clean : Clean k)
    (home : HomeSlots k tail n) :
    Wrote k (installTransLoop recovering n tail k) (homeWrites k tail n) ∧
      (installTransLoop recovering n tail k).lh = k.lh := by
  induction n generalizing tail k with
  | zero => exact ⟨Wrote.refl k,rfl⟩
  | succ n ih =>
    have first := bread_wrote clean (k.start + tail + 1)
    have second := first.trans (bread_wrote (first.clean clean) (k.lh.block tail).toNat)
    have source : (bread k (k.start + tail + 1)).1 = sees k (k.start + tail + 1) := bread_fst _ _
    rw [installTransLoop]
    simp only [bread_lh]
    rw [source]
    have third := second.trans (bwrite_wrote _ (k.lh.block tail).toNat (sees k (k.start + tail + 1)))
    simp only [append_nil,nil_append] at third
    generalize stored : bwrite _ (k.lh.block tail).toNat _ = k₁ at third ⊢
    have fourth : Wrote k (if recovering then k₁ else bunpin k₁ (k.lh.block tail).toNat)
        [((k.lh.block tail).toNat,sees k (k.start + tail + 1))] := by
      cases recovering with
      | true => exact third
      | false =>
        have written : sees k₁ (k.lh.block tail).toNat = k₁.disk (k.lh.block tail).toNat := by
          rw [third.sees,third.disk]
          simp
        exact third.trans (bunpin_wrote written)
    have lh₁ : k₁.lh = k.lh := by simp [← stored]
    generalize unpinned : (if recovering then k₁ else bunpin k₁ (k.lh.block tail).toNat) = k' at fourth ⊢
    have lh : k'.lh = k.lh := by
      rw [← unpinned]
      split_ifs <;> simp [lh₁]
    have home' : HomeSlots k' (tail + 1) n := by
      have shorter := home.tail
      simpa only [HomeSlots,lh,fourth.start] using shorter
    obtain ⟨rest,restLh⟩ := ih (tail + 1) k' (fourth.clean clean) home'
    refine ⟨?_,restLh.trans lh⟩
    have same : homeWrites k' (tail + 1) n = homeWrites k (tail + 1) n := by
      apply map_congr_left
      intro t member
      have range := mem_range'_1.mp member
      have apart := update_outside home (le_refl tail) (by omega) (t + 1) (by have := home.1; omega)
      rw [fourth.start,lh,fourth.sees,applyWrites_singleton,update_of_ne (by omega)]
    rw [same] at rest
    exact fourth.trans rest

def headBlock (k : Kernel) : Block := putBlocks k.lh k.lh.count (set32 (sees k k.start) 0 k.lh.n)

theorem writeHead_wrote {k : Kernel} (clean : Clean k) :
    Wrote k (writeHead k) [(k.start,headBlock k)] ∧ (writeHead k).lh = k.lh := by
  have read := bread_wrote clean k.start
  have stored := read.trans (bwrite_wrote _ k.start (headBlock k))
  have equal : writeHead k = bwrite (bread k k.start).2 k.start (headBlock k) := by
    rw [writeHead,headBlock]
    simp only [bread_lh,bread_fst]
    rw [read.start]
  rw [equal]
  exact ⟨stored,by simp⟩

theorem get32_putBlocks_zero (lh : LogHeader) (n : Nat) (data : Block) :
    get32 (putBlocks lh n data) 0 = get32 data 0 := by
  induction n with
  | zero => rfl
  | succ n ih => rw [putBlocks,get32_set32_ne _ _ (by omega),ih]

theorem get32_putBlocks (lh : LogHeader) (n : Nat) (data : Block) {i : Nat} (less : i < n) :
    get32 (putBlocks lh n data) (i + 1) = lh.block i := by
  induction n with
  | zero => omega
  | succ n ih => grind [putBlocks,get32_set32_same,get32_set32_ne]

theorem get32_headBlock_zero (k : Kernel) : get32 (headBlock k) 0 = k.lh.n := by
  rw [headBlock,get32_putBlocks_zero,get32_set32_same]

/-- A kernel whose running transaction has logged the distinct home blocks
`blocks`: their buffers hold the new contents and are pinned, every other buffer
is clean, and the header on disk is clear. -/
structure Staged (k : Kernel) (blocks : List (BitVec 32)) (new : Nat → Block) : Prop where
  cleared : headerCount k.disk k.start = 0
  fits : blocks.length ≤ logBlocks
  distinct : blocks.Nodup
  outside : ∀ b ∈ blocks, ¬ logArea k.start b.toNat
  count : k.lh.n = BitVec.ofNat 32 blocks.length
  block : ∀ i (bound : i < blocks.length), k.lh.block i = blocks[i]
  cached : ∀ b ∈ blocks, k.buf b.toNat = some (new b.toNat)
  pinned : ∀ b ∈ blocks, 0 < k.pins b.toNat
  clean : ∀ x, x ∉ blocks.map BitVec.toNat → k.pins x = 0 ∧ ∀ data, k.buf x = some data → data = k.disk x

structure Ready (k : Kernel) (blocks : List (BitVec 32)) (new : Nat → Block) : Prop
    extends Staged k blocks new where
  nonempty : 1 ≤ blocks.length

def installed (old : Disk) (blocks : List (BitVec 32)) (new : Nat → Block) : Disk :=
  fun b => if b ∈ blocks.map BitVec.toNat then new b else old b

section Commit
variable {k : Kernel} {blocks : List (BitVec 32)} {new : Nat → Block}

private theorem small_count {n : Nat} (fits : n ≤ logBlocks) : (BitVec.ofNat 32 n).toInt = n := by
  have bound : logBlocks = 30 := rfl
  rw [BitVec.toInt_eq_toNat_of_lt]
  · simp only [BitVec.toNat_ofNat]
    omega
  · simp only [BitVec.toNat_ofNat]
    omega

theorem Staged.lh_count (ready : Staged k blocks new) : k.lh.count = blocks.length := by
  rw [LogHeader.count,ready.count,small_count ready.fits]
  exact Int.toNat_natCast _

theorem Staged.isClean (ready : Staged k blocks new) : Clean k := by
  intro b data unpinned cached
  by_cases member : b ∈ blocks.map BitVec.toNat
  · obtain ⟨x,inside,rfl⟩ := mem_map.mp member
    have pinned := ready.pinned x inside
    omega
  · exact (ready.clean b member).2 data cached

theorem Staged.block_mem (ready : Staged k blocks new) {i : Nat} (less : i < blocks.length) :
    k.lh.block i ∈ blocks := by
  rw [ready.block i less]
  exact getElem_mem less

theorem Staged.homeSlots (ready : Staged k blocks new) : HomeSlots k 0 blocks.length := by
  refine ⟨by simpa using ready.fits,?_⟩
  intro t _ high
  exact ready.outside _ (ready.block_mem (by omega))

theorem Staged.sees_block (ready : Staged k blocks new) {i : Nat} (less : i < blocks.length) :
    sees k (k.lh.block i).toNat = new (k.lh.block i).toNat := by
  rw [sees,ready.cached _ (ready.block_mem less)]
  rfl

def slotWrites (k : Kernel) (n : Nat) (new : Nat → Block) : List (Nat × Block) :=
  (range' 0 n).map (fun t => (k.start + t + 1,new (k.lh.block t).toNat))

def blockWrites (k : Kernel) (n : Nat) (new : Nat → Block) : List (Nat × Block) :=
  (range' 0 n).map (fun t => ((k.lh.block t).toNat,new (k.lh.block t).toNat))

theorem writeLog_wrote (ready : Staged k blocks new) :
    Wrote k (writeLog k) (slotWrites k blocks.length new) ∧ (writeLog k).lh = k.lh := by
  have loop := writeLogLoop_wrote blocks.length 0 k ready.isClean ready.homeSlots
  have same : logWrites k 0 blocks.length = slotWrites k blocks.length new := by
    apply map_congr_left
    intro t member
    rw [ready.sees_block (by have := mem_range'_1.mp member; omega)]
  rw [writeLog,ready.lh_count,← same]
  exact loop

private theorem slots_hold {n t : Nat} (disk : Disk) (less : t < n) :
    applyWrites (slotWrites k n new) disk (k.start + t + 1) = new (k.lh.block t).toNat := by
  apply applyWrites_value
  · intro write member target
    obtain ⟨u,_,rfl⟩ := mem_map.mp member
    have equal : u = t := by simpa using target
    rw [equal]
  · right
    exact ⟨_,mem_map.mpr ⟨t,mem_range'_1.mpr (by omega),rfl⟩,rfl⟩

theorem commit_wrote (ready : Ready k blocks new) :
    ∃ head clear, get32 head 0 = BitVec.ofNat 32 blocks.length ∧
      (∀ i, i < blocks.length → get32 head (i + 1) = k.lh.block i) ∧ get32 clear 0 = 0 ∧
      Wrote k (writeHead (writeLog k)) (slotWrites k blocks.length new ++ [(k.start,head)]) ∧
      Wrote k (commit k) (slotWrites k blocks.length new ++ [(k.start,head)] ++
        (blockWrites k blocks.length new ++ [(k.start,clear)])) := by
  obtain ⟨logged,loggedLh⟩ := writeLog_wrote ready.toStaged
  obtain ⟨headed,headedLh⟩ := writeHead_wrote (logged.clean ready.isClean)
  rw [logged.start] at headed
  have sealed := logged.trans headed
  have lh : (writeHead (writeLog k)).lh = k.lh := headedLh.trans loggedLh
  have home : HomeSlots (writeHead (writeLog k)) 0 blocks.length := by
    simpa only [HomeSlots,lh,sealed.start] using ready.homeSlots
  obtain ⟨copied,copiedLh⟩ := installTransLoop_wrote false blocks.length 0 _
    (sealed.clean ready.isClean) home
  have same : homeWrites (writeHead (writeLog k)) 0 blocks.length = blockWrites k blocks.length new := by
    apply map_congr_left
    intro t member
    have less : t < blocks.length := by have := mem_range'_1.mp member; omega
    rw [lh,sealed.start,sealed.sees,applyWrites_append,applyWrites_singleton,update_of_ne (by omega),
      slots_hold _ less]
  rw [same] at copied
  have moved := sealed.trans copied
  have cleared := moved.trans (clearHead_wrote _)
  rw [append_nil] at cleared
  obtain ⟨erased,_⟩ := writeHead_wrote (cleared.clean ready.isClean)
  rw [cleared.start] at erased
  have complete := cleared.trans erased
  have unfolded : commit k =
      writeHead (clearHead (installTransLoop false blocks.length 0 (writeHead (writeLog k)))) := by
    have positive : 0 < k.lh.n.toInt := by
      rw [ready.count,small_count ready.fits]
      exact_mod_cast ready.nonempty
    rw [commit,if_pos positive,installTrans,lh,ready.lh_count]
  refine ⟨headBlock (writeLog k),
    headBlock (clearHead (installTransLoop false blocks.length 0 (writeHead (writeLog k)))),?_,?_,?_,sealed,?_⟩
  · rw [get32_headBlock_zero,loggedLh,ready.count]
  · intro i less
    rw [headBlock,loggedLh,ready.lh_count]
    exact get32_putBlocks _ _ _ less
  · rw [get32_headBlock_zero]
    rfl
  · rw [unfolded]
    simpa [append_assoc] using complete

end Commit

theorem Wrote.crash {k k' : Kernel} {writes : List (Nat × Block)} (wrote : Wrote k k' writes) (cut : Nat) :
    crashDisk k k' cut = applyWrites (writes.take cut) k.disk := by
  rw [crashDisk,wrote.issued,drop_left]

section Recovery
variable (start : Nat) (recycle : Nat → Nat)

theorem boot_clean (disk : Disk) : Clean (boot disk start recycle) := by
  intro b data _ cached
  simp [boot] at cached

theorem sees_boot (disk : Disk) : sees (boot disk start recycle) = disk := rfl

/-- Recovery installs the blocks the header lists from their slots, then clears
the header. -/
theorem recover_wrote {disk : Disk} {n : Nat} (fits : n ≤ logBlocks)
    (count : headerCount disk start = BitVec.ofNat 32 n)
    (outside : ∀ i, i < n → ¬ logArea start (get32 (disk start) (i + 1)).toNat) :
    ∃ clear, get32 clear 0 = 0 ∧ Wrote (boot disk start recycle) (recoverFromLog (boot disk start recycle))
      ((range' 0 n).map (fun t => ((get32 (disk start) (t + 1)).toNat,disk (start + t + 1))) ++
        [(start,clear)]) := by
  have read : Wrote (boot disk start recycle) (readHead (boot disk start recycle)) [] := by
    obtain ⟨issued,same,sees,clean,begin⟩ := bread_wrote (boot_clean start recycle disk) start
    exact ⟨issued,same,sees,clean,begin⟩
  have header : (bread (boot disk start recycle) start).1 = disk start := by
    rw [bread_fst,sees_boot]
  have number : (readHead (boot disk start recycle)).lh.n = BitVec.ofNat 32 n := by
    change get32 (bread (boot disk start recycle) start).1 0 = _
    rw [header]
    exact count
  have listed (i : Nat) (less : i < n) :
      (readHead (boot disk start recycle)).lh.block i = get32 (disk start) (i + 1) := by
    change (if (i : Int) < (get32 (bread (boot disk start recycle) start).1 0).toInt then
      get32 (bread (boot disk start recycle) start).1 (i + 1) else _) = _
    rw [header,show get32 (disk start) 0 = BitVec.ofNat 32 n from count,small_count fits,if_pos (by omega)]
  have begin : (readHead (boot disk start recycle)).start = start := read.start
  have iterations : (readHead (boot disk start recycle)).lh.count = n := by
    rw [LogHeader.count,number,small_count fits]
    exact Int.toNat_natCast n
  have home : HomeSlots (readHead (boot disk start recycle)) 0 n := by
    refine ⟨by omega,?_⟩
    intro t _ high
    rw [begin,listed t (by omega)]
    exact outside t (by omega)
  obtain ⟨copied,_⟩ := installTransLoop_wrote true n 0 _ (read.clean (boot_clean start recycle disk)) home
  have same : homeWrites (readHead (boot disk start recycle)) 0 n =
      (range' 0 n).map (fun t => ((get32 (disk start) (t + 1)).toNat,disk (start + t + 1))) := by
    apply map_congr_left
    intro t member
    rw [listed t (by have := mem_range'_1.mp member; omega),begin,read.sees,sees_boot,applyWrites_nil]
  rw [same] at copied
  have cleared := (read.trans copied).trans (clearHead_wrote _)
  obtain ⟨erased,_⟩ := writeHead_wrote (cleared.clean (boot_clean start recycle disk))
  rw [cleared.start] at erased
  have complete := cleared.trans erased
  refine ⟨headBlock (clearHead (installTransLoop true n 0 (readHead (boot disk start recycle)))),?_,?_⟩
  · rw [get32_headBlock_zero]
    rfl
  · rw [recoverFromLog,installTrans,iterations]
    simpa [boot] using complete

def Clear (home disk : Disk) : Prop :=
  headerCount disk start = 0 ∧ ∀ b, ¬ logArea start b → disk b = home b

/-- The log holds the whole transaction; its home blocks may hold anything. -/
structure Sealed (blocks : List (BitVec 32)) (new : Nat → Block) (old disk : Disk) : Prop where
  count : headerCount disk start = BitVec.ofNat 32 blocks.length
  block : ∀ i (bound : i < blocks.length), get32 (disk start) (i + 1) = blocks[i]
  slot : ∀ i (bound : i < blocks.length), disk (start + i + 1) = new blocks[i].toNat
  rest : ∀ b, ¬ logArea start b → b ∉ blocks.map BitVec.toNat → disk b = old b

variable {start}

private theorem start_in_area : logArea start start := ⟨le_refl _,by omega⟩

private theorem ne_start {b : Nat} (away : ¬ logArea start b) : b ≠ start := by
  rintro rfl
  exact away start_in_area

theorem Clear.crash {home disk : Disk} (clear : Clear start home disk) (cut : Nat) :
    Clear start home
      (crashDisk (boot disk start recycle) (recoverFromLog (boot disk start recycle)) cut) := by
  obtain ⟨head,zero,wrote⟩ := recover_wrote start recycle (n := 0) (by omega) clear.1 (by omega)
  rw [wrote.crash]
  cases cut with
  | zero => exact clear
  | succ cut =>
    simp only [range'_zero,map_nil,nil_append,take_succ_cons,take_nil,
      applyWrites_singleton]
    refine ⟨?_,?_⟩
    · rw [headerCount,update_self,zero]
    · intro b outside
      rw [update_of_ne (ne_start outside)]
      exact clear.2 b outside

section Transaction
variable {blocks : List (BitVec 32)} {new : Nat → Block} {old : Disk}

/-- Home writes of a sealed transaction keep it sealed, however many happen. -/
theorem Sealed.keep {disk : Disk} (sealed : Sealed start blocks new old disk)
    (outside : ∀ b ∈ blocks, ¬ logArea start b.toNat) (fits : blocks.length ≤ logBlocks)
    {writes : List (Nat × Block)} (home : ∀ write ∈ writes, write.1 ∈ blocks.map BitVec.toNat) :
    Sealed start blocks new old (applyWrites writes disk) := by
  have untouched (b : Nat) (inside : logArea start b) : applyWrites writes disk b = disk b := by
    apply applyWrites_other
    intro write member equal
    obtain ⟨x,listed,target⟩ := mem_map.mp (home write member)
    exact outside x listed (by rw [target,equal]; exact inside)
  refine ⟨?_,?_,?_,?_⟩
  · rw [headerCount,untouched start start_in_area]
    exact sealed.count
  · intro i bound
    rw [untouched start start_in_area]
    exact sealed.block i bound
  · intro i bound
    rw [untouched _ ⟨by omega,by omega⟩]
    exact sealed.slot i bound
  · grind [sealed.rest,applyWrites_other]

theorem Sealed.finish {disk : Disk} (sealed : Sealed start blocks new old disk)
    {writes : List (Nat × Block)} (home : ∀ write ∈ writes, write.1 ∈ blocks.map BitVec.toNat)
    (value : ∀ write ∈ writes, write.2 = new write.1)
    (all : ∀ b ∈ blocks.map BitVec.toNat, ∃ write ∈ writes, write.1 = b)
    {clear : Block} (zero : get32 clear 0 = 0) :
    Clear start (installed old blocks new) (update (applyWrites writes disk) start clear) := by
  refine ⟨by rw [headerCount,update_self,zero],?_⟩
  intro b away
  rw [update_of_ne (ne_start away)]
  unfold installed
  split_ifs with listed
  · apply applyWrites_value
    · intro write member target
      rw [value write member,target]
    · exact .inr (all b listed)
  · grind [sealed.rest,applyWrites_other]

/-- A crash inside the recovery of a sealed transaction leaves it sealed, or
recovery had already finished. -/
theorem Sealed.crash {disk : Disk} (sealed : Sealed start blocks new old disk)
    (outside : ∀ b ∈ blocks, ¬ logArea start b.toNat) (fits : blocks.length ≤ logBlocks) (cut : Nat) :
    (cut ≤ blocks.length → Sealed start blocks new old
      (crashDisk (boot disk start recycle) (recoverFromLog (boot disk start recycle)) cut)) ∧
    (blocks.length < cut → Clear start (installed old blocks new)
      (crashDisk (boot disk start recycle) (recoverFromLog (boot disk start recycle)) cut)) := by
  obtain ⟨head,zero,wrote⟩ := recover_wrote start recycle fits sealed.count (by
    intro i less
    rw [sealed.block i less]
    exact outside _ (getElem_mem less))
  rw [wrote.crash]
  generalize installs : (range' 0 blocks.length).map
    (fun t => ((get32 (disk start) (t + 1)).toNat,disk (start + t + 1))) = writes
  have length : writes.length = blocks.length := by simp [← installs]
  have entry (write : Nat × Block) (member : write ∈ writes) :
      ∃ i, ∃ bound : i < blocks.length, write = (blocks[i].toNat,new blocks[i].toNat) := by
    rw [← installs] at member
    obtain ⟨t,range,rfl⟩ := mem_map.mp member
    have less : t < blocks.length := by have := mem_range'_1.mp range; omega
    exact ⟨t,less,by rw [sealed.block t less,sealed.slot t less]⟩
  have home (write : Nat × Block) (member : write ∈ writes) : write.1 ∈ blocks.map BitVec.toNat := by
    obtain ⟨i,bound,rfl⟩ := entry write member
    exact mem_map.mpr ⟨_,getElem_mem bound,rfl⟩
  constructor
  · intro early
    rw [take_append_of_le_length (by omega)]
    exact sealed.keep outside fits (fun write member => home write (mem_of_mem_take member))
  · intro late
    rw [take_of_length_le (by simp [length]; omega),applyWrites_append,applyWrites_singleton]
    refine sealed.finish home ?_ ?_ zero
    · intro write member
      obtain ⟨i,bound,rfl⟩ := entry write member
      rfl
    · intro b listed
      obtain ⟨x,inside,rfl⟩ := mem_map.mp listed
      obtain ⟨i,bound,rfl⟩ := mem_iff_getElem.mp inside
      refine ⟨((get32 (disk start) (i + 1)).toNat,disk (start + i + 1)),?_,?_⟩
      · rw [← installs]
        exact mem_map.mpr ⟨i,mem_range'_1.mpr (by omega),rfl⟩
      · rw [sealed.block i bound]

end Transaction
end Recovery

/-- The first write_head of the commit is among the first `cut` block writes. -/
def headReached (k : Kernel) (cut : Nat) : Prop :=
  (writeHead (writeLog k)).issued.length ≤ k.issued.length + cut

section Atomicity
variable {k : Kernel} {blocks : List (BitVec 32)} {new : Nat → Block}

theorem Ready.clear (ready : Ready k blocks new) : Clear k.start k.disk k.disk :=
  ⟨ready.cleared,fun _ _ => rfl⟩

theorem headReached_iff (ready : Ready k blocks new) (cut : Nat) :
    headReached k cut ↔ blocks.length < cut := by
  obtain ⟨head,clear,_,_,_,sealed,_⟩ := commit_wrote ready
  have length : (slotWrites k blocks.length new).length = blocks.length := by simp [slotWrites]
  rw [headReached,sealed.issued,length_append,length_append,length,length_singleton]
  omega

/-- Before the header write a crash leaves the header clear and every home block
as it was. -/
theorem crash_before_head (ready : Ready k blocks new) {cut : Nat} (early : cut ≤ blocks.length) :
    Clear k.start k.disk (crashDisk k (commit k) cut) := by
  obtain ⟨head,clear,_,_,_,_,wrote⟩ := commit_wrote ready
  rw [wrote.crash,append_assoc,take_append_of_le_length (by simp [slotWrites]; omega)]
  have slots (write : Nat × Block) (member : write ∈ (slotWrites k blocks.length new).take cut) :
      k.start < write.1 ∧ write.1 ≤ k.start + blocks.length := by
    obtain ⟨t,range,rfl⟩ := mem_map.mp (mem_of_mem_take member)
    have := mem_range'_1.mp range
    exact ⟨by simp only; omega,by simp only; omega⟩
  refine ⟨?_,?_⟩
  · rw [headerCount,applyWrites_other]
    · exact ready.cleared
    · intro write member equal
      have := slots write member
      omega
  · intro b away
    apply applyWrites_other
    intro write member equal
    have range := slots write member
    have fits := ready.fits
    exact away ⟨by omega,by omega⟩

/-- After the header write the log holds the transaction, until the commit's
last write clears the header with everything installed. -/
theorem crash_after_head (ready : Ready k blocks new) {cut : Nat} (late : blocks.length < cut) :
    Sealed k.start blocks new k.disk (crashDisk k (commit k) cut) ∨
      Clear k.start (installed k.disk blocks new) (crashDisk k (commit k) cut) := by
  obtain ⟨head,clear,count,listed,zero,_,wrote⟩ := commit_wrote ready
  rw [wrote.crash]
  have length : (slotWrites k blocks.length new ++ [(k.start,head)]).length = blocks.length + 1 := by
    simp [slotWrites]
  have sealed : Sealed k.start blocks new k.disk
      (applyWrites (slotWrites k blocks.length new ++ [(k.start,head)]) k.disk) := by
    rw [applyWrites_append,applyWrites_singleton]
    refine ⟨?_,?_,?_,?_⟩
    · rw [headerCount,update_self,count]
    · intro i bound
      rw [update_self,listed i bound,ready.block i bound]
    · intro i bound
      rw [update_of_ne (by omega),slots_hold _ bound,ready.block i bound]
    · intro b away _
      rw [update_of_ne (ne_start away)]
      apply applyWrites_other
      intro write member equal
      obtain ⟨t,range,rfl⟩ := mem_map.mp member
      have := mem_range'_1.mp range
      have fits := ready.fits
      simp only at equal
      exact away ⟨by omega,by omega⟩
  have home (write : Nat × Block) (member : write ∈ blockWrites k blocks.length new) :
      write.1 ∈ blocks.map BitVec.toNat ∧ write.2 = new write.1 := by
    obtain ⟨t,range,rfl⟩ := mem_map.mp member
    have less : t < blocks.length := by have := mem_range'_1.mp range; omega
    exact ⟨mem_map.mpr ⟨_,ready.block_mem less,rfl⟩,rfl⟩
  obtain ⟨more,rfl⟩ : ∃ more, cut = blocks.length + 1 + more := ⟨cut - (blocks.length + 1),by omega⟩
  rw [← length,take_length_add_append,applyWrites_append]
  by_cases installing : more ≤ blocks.length
  · left
    rw [take_append_of_le_length (by simp [blockWrites]; omega)]
    exact sealed.keep ready.outside ready.fits (fun write member => (home write (mem_of_mem_take member)).1)
  · right
    rw [take_of_length_le (by simp [blockWrites]; omega),applyWrites_append,applyWrites_singleton]
    refine sealed.finish (fun write member => (home write member).1) (fun write member => (home write member).2)
      ?_ zero
    intro b member
    obtain ⟨x,inside,rfl⟩ := mem_map.mp member
    obtain ⟨i,bound,rfl⟩ := mem_iff_getElem.mp inside
    refine ⟨_,mem_map.mpr ⟨i,mem_range'_1.mpr (by omega),rfl⟩,?_⟩
    simp only
    rw [ready.block i bound]

theorem Clear.crashes {start : Nat} {home disk disk' : Disk} (clear : Clear start home disk)
    (crashed : Crashes start disk disk') : Clear start home disk' := by
  induction crashed with
  | none => exact clear
  | again disk' recycle cut _ ih => exact ih.crash recycle cut

/-- Crashes inside recovery keep a sealed transaction sealed until it is installed. -/
theorem Sealed.crashes {start : Nat} {old disk disk' : Disk} (sealed : Sealed start blocks new old disk)
    (outside : ∀ b ∈ blocks, ¬ logArea start b.toNat) (fits : blocks.length ≤ logBlocks)
    (crashed : Crashes start disk disk') :
    Sealed start blocks new old disk' ∨ Clear start (installed old blocks new) disk' := by
  induction crashed with
  | none => exact .inl sealed
  | again disk' recycle cut _ ih =>
    rcases ih with still | done
    · obtain ⟨early,late⟩ := still.crash recycle outside fits cut
      by_cases reached : cut ≤ blocks.length
      · exact .inl (early reached)
      · exact .inr (late (by omega))
    · exact .inr (done.crash recycle cut)

theorem recover_eq_crash (disk : Disk) (start : Nat) (recycle : Nat → Nat) {n : Nat} (fits : n ≤ logBlocks)
    (count : headerCount disk start = BitVec.ofNat 32 n)
    (outside : ∀ i, i < n → ¬ logArea start (get32 (disk start) (i + 1)).toNat) :
    (recoverFromLog (boot disk start recycle)).disk =
      crashDisk (boot disk start recycle) (recoverFromLog (boot disk start recycle)) (n + 1) := by
  obtain ⟨head,_,wrote⟩ := recover_wrote start recycle fits count outside
  rw [wrote.crash,wrote.disk,take_of_length_le (by simp)]

/-- Crash atomicity: however the commit is cut off, however often recovery is
cut off after that, one complete recovery leaves the home area untouched or with
every logged block replaced, the latter exactly when the commit's first
write_head had reached the disk, and the header clear. -/
theorem commit_crash_atomic (ready : Ready k blocks new) (cut : Nat) {disk : Disk}
    (crashed : Crashes k.start (crashDisk k (commit k) cut) disk) (recycle : Nat → Nat) :
    (headReached k cut → ∀ b, ¬ logArea k.start b →
      (recoverFromLog (boot disk k.start recycle)).disk b = installed k.disk blocks new b) ∧
    (¬ headReached k cut → ∀ b, ¬ logArea k.start b →
      (recoverFromLog (boot disk k.start recycle)).disk b = k.disk b) ∧
    headerCount (recoverFromLog (boot disk k.start recycle)).disk k.start = 0 := by
  have clearly {home : Disk} (clear : Clear k.start home disk) :
      Clear k.start home (recoverFromLog (boot disk k.start recycle)).disk := by
    rw [recover_eq_crash disk k.start recycle (n := 0) (by omega) clear.1 (by omega)]
    exact clear.crash recycle _
  rw [headReached_iff ready]
  by_cases late : blocks.length < cut
  · have final : Clear k.start (installed k.disk blocks new)
        (recoverFromLog (boot disk k.start recycle)).disk := by
      have outcome : Sealed k.start blocks new k.disk disk ∨
          Clear k.start (installed k.disk blocks new) disk := by
        rcases crash_after_head ready late with sealed | clear
        · exact sealed.crashes ready.outside ready.fits crashed
        · exact .inr (clear.crashes crashed)
      rcases outcome with sealed | clear
      · rw [recover_eq_crash disk k.start recycle ready.fits sealed.count (by
          intro i less
          rw [sealed.block i less]
          exact ready.outside _ (List.getElem_mem less))]
        exact (sealed.crash recycle ready.outside ready.fits _).2 (by omega)
      · exact clearly clear
    exact ⟨fun _ => final.2,fun absent => absurd late absent,final.1⟩
  · have final := clearly ((crash_before_head ready (by omega)).crashes crashed)
    exact ⟨fun reached => absurd reached late,fun _ => final.2,final.1⟩

end Atomicity

section Stage

private theorem bread_pins (k : Kernel) (b : Nat) : (bread k b).2.pins = k.pins := by
  unfold bread
  cases k.buf b <;> rfl

private theorem bread_buf_pinned {k : Kernel} {b x : Nat} {data : Block} (pinned : 0 < k.pins x)
    (cached : k.buf x = some data) : (bread k b).2.buf x = some data := by
  unfold bread
  cases missing : k.buf b with
  | some other => exact cached
  | none => grind

theorem logWrite_staged {k : Kernel} {blocks : List (BitVec 32)} {new : Nat → Block}
    (staged : Staged k blocks new) {b : BitVec 32} (fresh : b ∉ blocks) (away : ¬ logArea k.start b.toNat)
    (room : blocks.length < logBlocks) (data : Block) :
    ∃ k', logWrite k b data = some k' ∧ k'.disk = k.disk ∧ k'.start = k.start ∧
      Staged k' (blocks ++ [b]) (update new b.toNat data) := by
  have read := bread_wrote staged.isClean b.toNat
  have disk : (bread k b.toNat).2.disk = k.disk := read.disk
  have small : ¬ (logBlocks : Int) ≤ k.lh.n.toInt := by
    rw [staged.count,small_count staged.fits]
    omega
  have absent : ¬ ∃ i < k.lh.count, k.lh.block i = b := by
    rintro ⟨i,less,rfl⟩
    rw [staged.lh_count] at less
    exact fresh (staged.block_mem less)
  have other (x : BitVec 32) (member : x ∈ blocks) : x.toNat ≠ b.toNat := by
    intro equal
    exact fresh (BitVec.eq_of_toNat_eq equal ▸ member)
  have lh : (modify k b.toNat data).lh = k.lh := bread_lh k b.toNat
  have unfolded : logWrite k b data = some (logAppend (modify k b.toNat data) b) := by
    rw [logWrite]
    simp only [lh]
    rw [if_neg small,if_neg absent]
  refine ⟨_,unfolded,disk,read.start,⟨?_,?_,?_,?_,?_,?_,?_,?_,?_⟩⟩
  · simpa [logAppend,modify,bpin,headerCount,disk,read.start] using staged.cleared
  · simp only [length_append,length_singleton]
    omega
  · grind [staged.distinct]
  · grind [read.start,staged.outside,logAppend,modify,bpin]
  · simp only [logAppend,modify,bpin,bread_lh,staged.count,length_append,length_singleton]
    apply BitVec.eq_of_toNat_eq
    simp
  · intro i bound
    simp only [logAppend,modify,bpin,bread_lh,staged.lh_count]
    by_cases last : i = blocks.length
    · subst last
      simp
    · grind [Kernel,Staged,update_apply]
  · intro x member
    simp only [logAppend,modify,bpin]
    rcases mem_append.mp member with before | last
    · rw [update_of_ne (other x before),update_of_ne (other x before)]
      exact bread_buf_pinned (staged.pinned x before) (staged.cached x before)
    · rw [mem_singleton.mp last]
      simp
  · intro x member
    simp only [logAppend,modify,bpin,bread_pins]
    rcases mem_append.mp member with before | last
    · rw [update_of_ne (other x before)]
      exact staged.pinned x before
    · rw [mem_singleton.mp last]
      simp
  · intro x absentAll
    have ne : x ≠ b.toNat := by
      rintro rfl
      simp at absentAll
    have before : x ∉ blocks.map BitVec.toNat := by
      intro member
      simp only [map_append,mem_append,not_or] at absentAll
      exact absentAll.1 member
    simp only [logAppend,modify,bpin,bread_pins,update_of_ne ne,disk]
    refine ⟨(staged.clean x before).1,?_⟩
    intro data cached
    have clean := read.clean staged.isClean x data
    rw [bread_pins,disk] at clean
    exact clean (staged.clean x before).1 cached

theorem boot_staged {disk : Disk} {start : Nat} (cleared : headerCount disk start = 0) (recycle : Nat → Nat)
    (new : Nat → Block) : Staged (boot disk start recycle) [] new := by
  refine ⟨cleared,by simp,by simp,by simp,rfl,by simp,by simp,by simp,?_⟩
  intro x _
  simp [boot]

end Stage

/-- A transaction of one block on a zero disk, cut off right after its header
write, is completed by recovery. -/
theorem commit_crash_atomic_single : ∃ k, logWrite (boot (fun _ _ => 0) 2 id) 50 (fun _ => 7) = some k ∧
    (recoverFromLog (boot (crashDisk k (commit k) 2) k.start id)).disk 50 = fun _ => 7 := by
  have cleared : headerCount (fun _ _ => 0) 2 = 0 := by decide
  have staged := boot_staged cleared id (fun _ _ => 0)
  obtain ⟨k,logged,disk,start,next⟩ := logWrite_staged staged (b := 50) (by simp)
    (by simp [logArea,boot,logBlocks,maxOpBlocks]) (by decide) (fun _ => 7)
  have ready : Ready k [50] (update (fun _ _ => 0) 50 (fun _ => 7)) := ⟨next,by simp⟩
  have reached : headReached k 2 := (headReached_iff ready 2).mpr (by simp)
  have atomic := commit_crash_atomic ready 2 (.none _) id
  refine ⟨k,logged,?_⟩
  have away : ¬ logArea k.start 50 := by
    rw [start]
    simp [logArea,boot,logBlocks,maxOpBlocks]
  rw [atomic.1 reached 50 away]
  simp [installed]

end Xv6.Log
