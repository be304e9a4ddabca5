import Xv6.Exec.Loading

/-! The stack of a new program. Its strings and the array of their addresses go to
one page, from the top of it downwards; sp stays a multiple of 16 and is compared
with the bottom of the page before anything is written. -/
namespace Xv6.Exec
open Lib.Bytes Vm Function List

variable {m₀ m m' m'' : Memory} {traps : Nat → Pte} {pt : Frame} {sz n : Nat} {own own' : Frame → Option Place} {page page' page'' : Page}
variable {argv : List (List Byte)} {s : List Byte} {a base i k sp : Nat}

/-- The last page of the new address space is the stack. -/
structure Stacked (m₀ : Memory) (traps : Nat → Pte) (pt : Frame) (n : Nat) (m : Memory) (own : Frame → Option Place) (page : Page) : Prop
    extends Image m₀ traps pt ((n + 2) * pgsize) m own where
  stack : m.leaf pt (n + 1) = some ((blank pteW).1,page)

def guard : Pte := (blank pteW).1 &&& ~~~pteU

theorem Stacked.below (stacked : Stacked m₀ traps pt n m own page) : n + 1 < userPages := by
  have small := npages_user (show (n + 2) * pgsize ≤ trapframe from stacked.resident.sz)
  rw [npages_mul] at small
  omega

/-! Making it. -/

theorem Loading.roundUp (loading : Loading m₀ traps pt sz m own) (ram : m₀.freelist.length ≤ ramPages) :
    pgroundup sz = npages sz * pgsize ∧ Loading m₀ traps pt (npages sz * pgsize) m own := by
  have room := loading.room
  have same := npages_mul (npages sz)
  have small : npages sz * pgsize ≤ trapframe := below_trapframe ram (by rw [same]; omega)
  refine ⟨pgroundup_eq ((show sz ≤ trapframe from loading.resident.sz).trans (by decide)),⟨loading.toImage.resize
    (Changes.refl loading.resident.owned) small (fun v past below => ?_) fun v below _ _ leaf => loading.readable below leaf,
    fun v inside => ?_,by rw [same]; exact room⟩⟩
  · rw [same] at past
    exact loading.resident.empty past below
  · rw [same] at inside
    exact loading.mapped v inside

/-- The guard page and the stack. -/
theorem Loading.makeStack (loading : Loading m₀ traps pt (n * pgsize) m own) (ram : m₀.freelist.length ≤ ramPages) : ∃ r m' own',
    makeStack m pt (n * pgsize) = .ok (r,m') ∧ (r = none → Image m₀ traps pt (n * pgsize) m' own') ∧
      ∀ sz', r = some sz' → sz' = (n + 2) * pgsize ∧ (Stacked m₀ traps pt n m' own' fun _ => 0) ∧
        ∀ v < userPages, m'.leaf pt v = if v = n then some (guard,fun _ => 0) else if v = n + 1 then some (blank pteW) else m.leaf pt v := by
  have room := loading.room
  rw [npages_mul] at room
  have wide : n * pgsize + 2 * pgsize = (n + 2) * pgsize := (Nat.add_mul ..).symm
  have least : (n + 2) * pgsize < 2^64 := by
    have ramSize : ramPages = 2^15 := by decide
    simp only [pgsize]
    omega
  obtain ⟨r,m1,own1,ran,fails,grows⟩ := loading.uvmalloc ram (show pteW >>> 10 = 0 by decide) ((n + 2) * pgsize)
  unfold Exec.makeStack
  rw [show (n * pgsize + (userstack + 1) * pgsize) % 2^64 = (n + 2) * pgsize by
    rw [show userstack + 1 = 2 from rfl,wide,Nat.mod_eq_of_lt least],ran]
  dsimp only
  by_cases none : r = 0
  · rw [if_pos none]
    exact ⟨Option.none,m1,own1,rfl,fun _ => fails none,by rintro _ ⟨⟩⟩
  rw [if_neg none]
  obtain ⟨size,loading1,leaves1⟩ := grows none
  rw [Nat.max_eq_right (Nat.mul_le_mul_right _ (by omega))] at size loading1
  have pages : npages ((n + 2) * pgsize) = n + 2 := npages_mul _
  have below := npages_user (show (n + 2) * pgsize ≤ trapframe from loading1.resident.sz)
  have grown : ∀ v, n ≤ v → v < n + 2 → m1.leaf pt v = some (blank pteW) := by
    intro v low high
    rw [leaves1 v (by omega),grow,pages,npages_mul,if_pos ⟨low,high⟩]
  obtain ⟨m2,cleared,changes⟩ := loading1.resident.owned.uvmclear (show n < userPages by omega) (grown n (Nat.le_refl n) (by omega))
  have place : (r + 2^64 - (userstack + 1) * pgsize) % 2^64 = n * pgsize := by
    rw [size,show userstack + 1 = 2 from rfl,← wide]
    omega
  rw [place,cleared]
  have image := loading1.toImage.update (by omega) (show guard &&& pteR ≠ 0 by decide) changes
  refine ⟨some r,m2,own1,rfl,by rintro ⟨⟩,fun sz' same => ?_⟩
  cases same
  refine ⟨size,⟨image,?_⟩,fun v under => ?_⟩
  · rw [changes.leaves (n + 1) (by omega),update_of_ne (by omega),grown (n + 1) (by omega) (by omega)]
    rfl
  · rw [changes.leaves v under]
    by_cases here : v = n
    · rw [if_pos here,here,update_self]
      rfl
    · rw [if_neg here,update_of_ne here]
      by_cases stack : v = n + 1
      · rw [if_pos stack,stack]
        exact grown (n + 1) (by omega) (by omega)
      · rw [if_neg stack,leaves1 v under,grow,pages,npages_mul,if_neg (by omega)]

/-! Writing to it. -/

/-- Only the stack has been written to. -/
structure Pushes (m₀ : Memory) (traps : Nat → Pte) (pt : Frame) (n : Nat) (own : Frame → Option Place) (m : Memory) (page : Page) (m' : Memory) (page' : Page) :
    Prop where
  stacked : Stacked m₀ traps pt n m' own page'
  leaves : ∀ v < userPages, v ≠ n + 1 → m'.leaf pt v = m.leaf pt v
  entry : m'.entry pt ((n + 1) * pgsize) = m.entry pt ((n + 1) * pgsize)
  frames : ∀ f, f ≠ pte2pa (m.entry pt ((n + 1) * pgsize)) → m'.page f = m.page f
  inside : ∀ k, pgsize ≤ k → page' k = page k

namespace Pushes

theorem refl (stacked : Stacked m₀ traps pt n m own page) : Pushes m₀ traps pt n own m page m page :=
  ⟨stacked,fun _ _ _ => rfl,rfl,fun _ _ => rfl,fun _ _ => rfl⟩

theorem trans (first : Pushes m₀ traps pt n own m page m' page') (second : Pushes m₀ traps pt n own m' page' m'' page'') :
    Pushes m₀ traps pt n own m page m'' page'' := by
  refine ⟨second.stacked,fun v below other => (second.leaves v below other).trans (first.leaves v below other),
    second.entry.trans first.entry,fun f other => ?_,fun k past => (second.inside k past).trans (first.inside k past)⟩
  rw [second.frames f (by rw [first.entry]; exact other),first.frames f other]

end Pushes

/-- A copyout to the stack, whose process is the one that is running the old program. -/
theorem Stacked.copyout (stacked : Stacked m₀ traps pt n m own page) (p : Proc) {va : Nat} {src : List Byte} (some : src ≠ [])
    (low : (n + 1) * pgsize ≤ va) (high : va + src.length ≤ (n + 2) * pgsize) : ∃ pages m',
      m.copyout p pt va src = .ok (true,pages,m') ∧
        Pushes m₀ traps pt n own m page m' (copyAt page (va - (n + 1) * pgsize) src) := by
  have below := stacked.below
  have bottom : (n + 1) * pgsize < maxva := by
    have less : (n + 1) * pgsize < userPages * pgsize := Nat.mul_lt_mul_of_pos_right below (by decide)
    exact less.trans (by decide)
  have positive : 0 < src.length := length_pos_iff.mpr some
  have base : pgrounddown va = (n + 1) * pgsize := by
    simp only [pgrounddown,pgsize] at *
    omega
  have leaf := stacked.stack
  unfold Memory.leaf at leaf
  split_ifs at leaf with valid
  have parts := Option.some.inj leaf
  have flags : pteFlags (m.entry pt ((n + 1) * pgsize)) = (blank pteW).1 := congrArg Prod.fst parts
  have contents : m.page (pte2pa (m.entry pt ((n + 1) * pgsize))) = page := congrArg Prod.snd parts
  have user : m.entry pt ((n + 1) * pgsize) &&& pteU ≠ 0 := by
    rw [← pteFlags_mask (by decide),flags]
    decide
  have writable : m.entry pt ((n + 1) * pgsize) &&& pteW ≠ 0 := by
    rw [← pteFlags_mask (by decide),flags]
    decide
  have owned := stacked.resident.owned
  have mine := owned.userPage below valid
  have real : pte2pa (m.entry pt ((n + 1) * pgsize)) ≠ 0 := Nat.ne_of_gt (owned.small mine).1
  have walked : m.walkaddr pt ((n + 1) * pgsize) = pte2pa (m.entry pt ((n + 1) * pgsize)) := by
    rw [m.walkaddr_entry bottom,if_neg valid,if_neg user]
  have served : m.userPage p pt ((n + 1) * pgsize) = .ok (pte2pa (m.entry pt ((n + 1) * pgsize)),m) := by
    unfold Memory.userPage
    rw [walked]
    exact if_neg real
  have whole : min (pgsize - (va - (n + 1) * pgsize)) src.length = src.length := by
    simp only [pgsize] at *
    omega
  have changes := owned.setUser below stacked.stack (copyAt page (va - (n + 1) * pgsize) src)
  obtain ⟨l,length⟩ : ∃ l, src.length = l + 1 := ⟨src.length - 1,by omega⟩
  -- the page is full after the only turn
  have ends : ∀ (dstva : Nat) (m1 : Memory), Memory.copyoutFrom p pt l dstva [] m1 = .ok (true,[],m1) := by
    intro dstva m1
    cases l with
    | zero => rfl
    | succ l => exact if_pos rfl
  refine ⟨[pte2pa (m.entry pt ((n + 1) * pgsize))],
    m.setPage (pte2pa (m.entry pt ((n + 1) * pgsize))) (copyAt page (va - (n + 1) * pgsize) src),?_,?_⟩
  · rw [Memory.copyout,length,Memory.copyoutFrom,if_neg some]
    dsimp only
    rw [base,if_neg (Nat.not_le.mpr bottom),served]
    change (if pte2pa (m.entry pt ((n + 1) * pgsize)) = 0 then _ else _) = _
    rw [if_neg real,m.walk_false pt bottom]
    cases found : m.tableFrom ((n + 1) * pgsize) 2 pt with
    | none =>
      rw [Memory.entry,Memory.entryFrom,found] at valid
      exact absurd BitVec.zero_and valid
    | some t =>
      change (if m.pte t (px 0 ((n + 1) * pgsize)) &&& pteW = 0 then _ else _) = _
      rw [← entry_found found,if_neg writable,contents,whole,take_length,drop_length,ends]
      rfl
  · refine ⟨⟨stacked.toImage.update (by rw [npages_mul]; omega) (show (blank pteW).1 &&& pteR ≠ 0 by decide) changes,?_⟩,fun v under other => ?_,
      ?_,fun f other => update_of_ne other ..,fun k past => if_neg ?_⟩
    · rw [changes.leaves _ below,update_self]
    · rw [changes.leaves v under,update_of_ne other]
    · refine entries_of_tables owned.tree (fun f path there => update_of_ne ?_ ..) owned.rooted rfl
      rintro rfl
      rw [mine] at there
      cases there
    · simp only [pgsize] at *
      omega

/-! The strings. -/

def up16 (n : Nat) : Nat := (n + 15) / 16 * 16

def used (argv : List (List Byte)) : Nat := (argv.map fun s => up16 (s.length + 1)).sum

theorem used_cons (s : List Byte) (argv : List (List Byte)) : used (s :: argv) = up16 (s.length + 1) + used argv := rfl

def addresses : (sp : Nat) → List (List Byte) → List Nat
  | _, [] => []
  | sp, s :: argv => (sp - up16 (s.length + 1)) :: addresses (sp - up16 (s.length + 1)) argv

theorem length_addresses (sp : Nat) (argv : List (List Byte)) : (addresses sp argv).length = argv.length := by
  induction argv generalizing sp with
  | nil => rfl
  | cons s argv ih => exact congrArg (· + 1) (ih _)

def written (base : Nat) : (sp : Nat) → List (List Byte) → Page → Page
  | _, [], page => page
  | sp, s :: argv, page =>
    written base (sp - up16 (s.length + 1)) argv (copyAt page (sp - up16 (s.length + 1) - base) (s ++ [0]))

/-- The arguments that sys_exec passes on. -/
structure Admitted (argv : List (List Byte)) : Prop where
  count : argv.length < maxarg
  short : ∀ s ∈ argv, s.length < pgsize
  plain : ∀ s ∈ argv, 0 ∉ s

theorem lower16_eq {n : Nat} (aligned : sp % 16 = 0) (small : sp < 2^64) (fits : n ≤ sp) :
    lower16 sp n = sp - up16 n ∧ up16 n ≤ sp ∧ (sp - up16 n) % 16 = 0 := by
  simp only [lower16,up16]
  omega

theorem pushStrings_pushes (p : Proc) {ustack : List Nat} (stacked : Stacked m₀ traps pt n m own page)
    (low : (n + 1) * pgsize ≤ sp) (high : sp ≤ (n + 2) * pgsize) (aligned : sp % 16 = 0) (short : ∀ s ∈ argv, s.length < pgsize)
    (count : ustack.length + argv.length < maxarg) : ∃ r m' page', pushStrings p pt ((n + 1) * pgsize) argv sp ustack m = .ok (r,m') ∧
      Pushes m₀ traps pt n own m page m' page' ∧ (r = none ↔ sp < (n + 1) * pgsize + used argv) ∧
      ∀ sp' ustack', r = some (sp',ustack') → sp' = sp - used argv ∧ sp' % 16 = 0 ∧ ustack' = ustack ++ addresses sp argv ∧
        page' = written ((n + 1) * pgsize) sp argv page := by
  induction argv generalizing m page sp ustack with
  | nil =>
    refine ⟨some (sp,ustack),m,page,rfl,.refl stacked,⟨nofun,fun less => ?_⟩,fun sp' ustack' same => ?_⟩
    · exact absurd less (by rw [show used [] = 0 from rfl]; omega)
    · cases same
      exact ⟨rfl,aligned,(append_nil _).symm,rfl⟩
  | cons s argv ih =>
    have below : (n + 2) * pgsize < 2^64 :=
      Nat.lt_of_le_of_lt (show (n + 2) * pgsize ≤ trapframe from stacked.resident.sz) (by decide)
    have length : s.length < pgsize := short s mem_cons_self
    have least : pgsize ≤ (n + 1) * pgsize := Nat.le_mul_of_pos_left _ (Nat.succ_pos n)
    obtain ⟨lowered,fits,aligned'⟩ := lower16_eq aligned (Nat.lt_of_le_of_lt high below) (show s.length + 1 ≤ sp by omega)
    have atLeast : s.length + 1 ≤ up16 (s.length + 1) := by
      simp only [up16]
      omega
    rw [length_cons] at count
    unfold pushStrings
    rw [if_neg (by omega)]
    dsimp only
    rw [lowered]
    by_cases less : sp - up16 (s.length + 1) < (n + 1) * pgsize
    · rw [if_pos less]
      refine ⟨none,m,page,rfl,.refl stacked,⟨fun _ => ?_,fun _ => rfl⟩,nofun⟩
      rw [used_cons]
      omega
    rw [if_neg less]
    obtain ⟨pages,m1,copied,first⟩ := stacked.copyout p (append_ne_nil_of_right_ne_nil s (cons_ne_nil 0 []))
      (Nat.not_lt.mp less) (by rw [length_append,length_singleton]; omega)
    rw [copied]
    dsimp only
    obtain ⟨r,m2,page2,ran,second,fails,succeeds⟩ := ih first.stacked (Nat.not_lt.mp less) (by omega) aligned'
      (fun s' member => short s' (mem_cons_of_mem _ member))
      (show (ustack ++ [sp - up16 (s.length + 1)]).length + argv.length < maxarg by rw [length_append,length_singleton]; omega)
    refine ⟨r,m2,page2,ran,first.trans second,?_,fun sp' ustack' same => ?_⟩
    · rw [fails,used_cons]
      omega
    · obtain ⟨lowest,still,array,pages⟩ := succeeds sp' ustack' same
      refine ⟨by rw [lowest,used_cons]; omega,still,?_,pages⟩
      rw [array,append_assoc]
      rfl

/-! The array. -/

def Fits (argv : List (List Byte)) : Prop := used argv + up16 ((argv.length + 1) * 8) ≤ userstack * pgsize

instance (argv : List (List Byte)) : Decidable (Fits argv) := inferInstanceAs (Decidable (_ ≤ _))

@[simp] theorem length_bytes64 (words : List Nat) : (bytes64 words).length = 8 * words.length := by simp [bytes64]

def stackPage (base : Nat) (argv : List (List Byte)) (page : Page) : Page :=
  let sp := base + pgsize
  copyAt (written base sp argv page) (pgsize - used argv - up16 ((argv.length + 1) * 8)) (bytes64 (addresses sp argv ++ [0]))

theorem pushArguments_pushes (p : Proc) (stacked : Stacked m₀ traps pt n m own page) (admitted : Admitted argv) :
    ∃ r m' page', pushArguments m p pt ((n + 2) * pgsize) argv = .ok (r,m') ∧ Pushes m₀ traps pt n own m page m' page' ∧
      (r = none ↔ ¬Fits argv) ∧ ∀ sp argc, r = some (sp,argc) → argc = argv.length ∧
        sp = (n + 2) * pgsize - used argv - up16 ((argv.length + 1) * 8) ∧ page' = stackPage ((n + 1) * pgsize) argv page := by
  have below : (n + 2) * pgsize < 2^64 :=
    Nat.lt_of_le_of_lt (show (n + 2) * pgsize ≤ trapframe from stacked.resident.sz) (by decide)
  have size : (n + 2) * pgsize = (n + 1) * pgsize + pgsize := Nat.succ_mul (n + 1) pgsize
  have least : pgsize ≤ (n + 1) * pgsize := Nat.le_mul_of_pos_left _ (Nat.succ_pos n)
  have stack : userstack * pgsize = pgsize := Nat.one_mul pgsize
  have aligned : (n + 2) * pgsize % 16 = 0 := by
    rw [Nat.mul_mod]
    exact Nat.zero_mod 16
  have base : ((n + 2) * pgsize + 2^64 - userstack * pgsize) % 2^64 = (n + 1) * pgsize := by omega
  have count := admitted.count
  obtain ⟨r,m1,page1,ran,first,fails,succeeds⟩ := pushStrings_pushes p stacked (show (n + 1) * pgsize ≤ (n + 2) * pgsize by omega)
    (Nat.le_refl _) aligned admitted.short (show ([] : List Nat).length + argv.length < maxarg by rw [length_nil]; omega)
  have array : (argv.length + 1) * 8 ≤ up16 ((argv.length + 1) * 8) := by
    simp only [up16]
    omega
  unfold pushArguments
  dsimp only
  rw [base,ran]
  cases r with
  | none =>
    refine ⟨none,m1,page1,rfl,first,⟨fun _ => ?_,fun _ => rfl⟩,nofun⟩
    have short := fails.mp rfl
    unfold Fits
    omega
  | some top =>
    obtain ⟨sp,ustack⟩ := top
    obtain ⟨lowest,aligned1,addressed,contents⟩ := succeeds sp ustack rfl
    rw [nil_append] at addressed
    have enough : ¬(n + 2) * pgsize < (n + 1) * pgsize + used argv := fun less => nomatch fails.mpr less
    have length : ustack.length = argv.length := by rw [addressed,length_addresses]
    have most : maxarg * 8 ≤ pgsize := by decide
    obtain ⟨lowered,fits,-⟩ := lower16_eq aligned1 (show sp < 2^64 by omega) (show (ustack.length + 1) * 8 ≤ sp by omega)
    dsimp only
    rw [pushArray,if_neg (by omega)]
    dsimp only
    rw [lowered,length]
    by_cases less : sp - up16 ((argv.length + 1) * 8) < (n + 1) * pgsize
    · rw [if_pos less]
      refine ⟨none,m1,page1,rfl,first,⟨fun _ => ?_,fun _ => rfl⟩,nofun⟩
      unfold Fits
      omega
    rw [if_neg less]
    have bytes : (bytes64 (ustack ++ [0])).length = (argv.length + 1) * 8 := by
      rw [length_bytes64,length_append,length,length_singleton,Nat.mul_comm]
    obtain ⟨pages,m2,copied,second⟩ := first.stacked.copyout p
      (show bytes64 (ustack ++ [0]) ≠ [] by rw [← length_pos_iff,bytes]; omega) (Nat.not_lt.mp less) (by rw [bytes]; omega)
    rw [copied]
    refine ⟨some (sp - up16 ((argv.length + 1) * 8),argv.length),m2,_,rfl,first.trans second,⟨nofun,fun refused => absurd ?_ refused⟩,
      fun sp' argc same => ?_⟩
    · unfold Fits
      omega
    · cases same
      refine ⟨rfl,by rw [lowest],?_⟩
      rw [contents,addressed,stackPage,← size,show sp - up16 ((argv.length + 1) * 8) - (n + 1) * pgsize = pgsize - used argv - up16 ((argv.length + 1) * 8) by omega]

/-! What is there then. -/

theorem addresses_bounds (there : (addresses sp argv)[i]? = some a)
    (string : argv[i]? = some s) (fits : used argv ≤ sp) : sp - used argv ≤ a ∧ a + (s.length + 1) ≤ sp := by
  induction argv generalizing sp i with
  | nil => cases string
  | cons s' argv ih =>
    rw [used_cons] at fits ⊢
    have atLeast : s'.length + 1 ≤ up16 (s'.length + 1) := by
      simp only [up16]
      omega
    cases i with
    | zero =>
      cases there
      cases string
      omega
    | succ i =>
      have rest := ih there string (by omega)
      omega

theorem addresses_apart {j b : Nat} (order : i < j) (first : (addresses sp argv)[i]? = some a)
    (second : (addresses sp argv)[j]? = some b) (string : argv[j]? = some s) (fits : used argv ≤ sp) : b + (s.length + 1) ≤ a := by
  induction argv generalizing sp i j with
  | nil => cases string
  | cons s' argv ih =>
    rw [used_cons] at fits
    cases j with
    | zero => exact absurd order (Nat.not_lt_zero i)
    | succ j =>
      cases i with
      | zero =>
        cases first
        have second' : (addresses (sp - up16 (s'.length + 1)) argv)[j]? = some b := second
        exact (addresses_bounds second' string (by omega)).2
      | succ i => exact ih (Nat.lt_of_succ_lt_succ order) first second string (by omega)

theorem written_above (fits : base + used argv ≤ sp) (above : sp - base ≤ k) :
    written base sp argv page k = page k := by
  induction argv generalizing sp page with
  | nil => rfl
  | cons s argv ih =>
    rw [used_cons] at fits
    have atLeast : s.length + 1 ≤ up16 (s.length + 1) := by
      simp only [up16]
      omega
    rw [written,ih (by omega) (by omega),copyAt,if_neg]
    rw [length_append,length_singleton]
    omega

theorem written_string (fits : base + used argv ≤ sp)
    (there : (addresses sp argv)[i]? = some a) (string : argv[i]? = some s) (inside : k ≤ s.length) :
    written base sp argv page (a - base + k) = (s ++ [0]).getD k 0 := by
  induction argv generalizing sp i page with
  | nil => cases string
  | cons s' argv ih =>
    rw [used_cons] at fits
    cases i with
    | zero =>
      cases there
      cases string
      rw [written,written_above (by omega) (by omega),copyAt,if_pos,Nat.add_sub_cancel_left]
      rw [length_append,length_singleton]
      omega
    | succ i => exact ih (by omega) there string

end Xv6.Exec
