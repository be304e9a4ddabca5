import Xv6.Vm.Owning

/-! What the functions of vm.c do to the user memory of a page table. The memory is
the map from page numbers to flags and contents; a call changes this map in the
pages that it names, takes what it needs from the freelist and gives back what it
does not need any more, and leaves the rest of the memory alone. -/
namespace Xv6.Vm
open Lib.Bytes Function

variable {m m' m'' : Memory} {root : Frame} {limit : Nat} {own own' own'' : Frame → Option Place}
variable {g : Frame} {contents : Memory → Page} {oldsz sz : Nat} {page : Page} {flags perm xperm : Pte}

def Memory.leaf (m : Memory) (root : Frame) (v : Nat) : Option (Pte × Page) :=
  if m.entry root (v * pgsize) &&& pteV ≠ 0 then
    some (pteFlags (m.entry root (v * pgsize)),m.page (pte2pa (m.entry root (v * pgsize))))
  else none

theorem leaf_congr {v : Nat} (entry : m'.entry root (v * pgsize) = m.entry root (v * pgsize))
    (page : m.entry root (v * pgsize) &&& pteV ≠ 0 →
      m'.page (pte2pa (m.entry root (v * pgsize))) = m.page (pte2pa (m.entry root (v * pgsize)))) :
    m'.leaf root v = m.leaf root v := by
  unfold Memory.leaf
  rw [entry]
  split_ifs with valid
  · rw [page valid]
  · rfl

theorem leaf_none {v : Nat} : m.leaf root v = none ↔ m.entry root (v * pgsize) &&& pteV = 0 := by
  unfold Memory.leaf
  split_ifs with valid
  · exact ⟨nofun,fun invalid => absurd invalid valid⟩
  · exact ⟨fun _ => not_not.mp valid,fun _ => rfl⟩

theorem mask_low (low : flags >>> 10 = 0) : pteFlags flags = flags := by
  have small : flags.toNat / 2^10 = 0 := by
    have zero := congrArg BitVec.toNat low
    rwa [BitVec.toNat_ushiftRight,Nat.shiftRight_eq_div_pow] at zero
  apply BitVec.eq_of_toNat_eq
  rw [pteFlags,BitVec.toNat_and]
  change flags.toNat &&& (2^10 - 1) = _
  rw [Nat.and_two_pow_sub_one_eq_mod]
  omega

theorem or_low (low : perm >>> 10 = 0) : (perm ||| pteV) >>> 10 = 0 := by
  rw [BitVec.ushiftRight_or_distrib,low]
  rfl

theorem pteFlags_made {f : Frame} (low : perm >>> 10 = 0) : pteFlags (pa2pte f ||| perm ||| pteV) = perm ||| pteV := by
  have apart : pa2pte f &&& 0x3FF = 0 := shift_mask _ (by decide)
  rw [BitVec.or_assoc,pteFlags,BitVec.and_comm,BitVec.and_or_distrib_left,BitVec.and_comm,apart,BitVec.and_comm]
  exact BitVec.zero_or.trans (mask_low (or_low low))

/-- Pages go from the freelist to the owner and back; all others are left alone. -/
structure Trades (m : Memory) (own : Frame → Option Place) (m' : Memory) (own' : Frame → Option Place) : Prop where
  conserves : ∀ f, f ∈ m'.freelist ∨ own' f ≠ none ↔ f ∈ m.freelist ∨ own f ≠ none
  outside : ∀ f, f ∉ m.freelist → own f = none → m'.page f = m.page f
  bounds : m'.first = m.first ∧ m'.last = m.last

namespace Trades

theorem refl (m : Memory) (own : Frame → Option Place) : Trades m own m own := ⟨fun _ => Iff.rfl,fun _ _ _ => rfl,rfl,rfl⟩

theorem stranger (trades : Trades m own m' own') {f : Frame} (out : f ∉ m.freelist) (nobody : own f = none) :
    f ∉ m'.freelist ∧ own' f = none := by
  have not : ¬(f ∈ m'.freelist ∨ own' f ≠ none) := by
    rw [trades.conserves f]
    exact fun either => either.elim out fun owned => owned nobody
  exact ⟨fun free => not (.inl free),by_contra fun owned => not (.inr owned)⟩

theorem trans (first : Trades m own m' own') (second : Trades m' own' m'' own'') : Trades m own m'' own'' := by
  refine ⟨fun f => (second.conserves f).trans (first.conserves f),fun f out nobody => ?_,second.bounds.1.trans first.bounds.1,
    second.bounds.2.trans first.bounds.2⟩
  obtain ⟨out',nobody'⟩ := first.stranger out nobody
  rw [second.outside f out' nobody',first.outside f out nobody]

end Trades

/-- A page table that is not the owner's is as it was. -/
theorem Owns.bystander {other : Frame → Option Place} (owns : Owns m root limit other) (trades : Trades m own m' own')
    (apart : ∀ f, other f ≠ none → own f = none) (pool : Pool m') : Owns m' root limit other ∧
      (∀ w, m'.entry root w = m.entry root w) ∧ ∀ f place, other f = some place → m'.page f = m.page f ∧ own' f = none := by
  have same : ∀ f place, other f = some place → m'.page f = m.page f ∧ f ∉ m'.freelist ∧ own' f = none := by
    intro f place there
    have nobody := apart f (by rw [there]; nofun)
    have out := (owns.held f place there).2.2
    exact ⟨trades.outside f out nobody,trades.stranger out nobody⟩
  exact ⟨owns.outside (fun f path there => (same f _ there).1) trades.bounds pool fun f place there => (same f place there).2.1,
    fun w => entries_of_tables owns.tree (fun f path there => (same f _ there).1) owns.rooted rfl,
    fun f place there => ⟨(same f place there).1,(same f place there).2.2⟩⟩

/-- The call that led from m to m' has made the user memory below the limit what
`leaves` says. -/
structure Changes (root : Frame) (limit : Nat) (m : Memory) (own : Frame → Option Place) (m' : Memory)
    (own' : Frame → Option Place) (leaves : Nat → Option (Pte × Page)) : Prop where
  owns : Owns m' root limit own'
  leaves : ∀ v < limit, m'.leaf root v = leaves v
  beyond : ∀ w < maxva, limit ≤ w / pgsize → m'.entry root w = m.entry root w
  trades : Trades m own m' own'

namespace Changes
variable {leaves leaves' : Nat → Option (Pte × Page)}

theorem refl (owns : Owns m root limit own) : Changes root limit m own m own (m.leaf root) :=
  ⟨owns,fun _ _ => rfl,fun _ _ _ => rfl,.refl m own⟩

theorem congr (changes : Changes root limit m own m' own' leaves) (same : ∀ v < limit, leaves v = leaves' v) :
    Changes root limit m own m' own' leaves' :=
  { changes with leaves := fun v inside => (changes.leaves v inside).trans (same v inside) }

theorem trans (first : Changes root limit m own m' own' leaves) (second : Changes root limit m' own' m'' own'' leaves') :
    Changes root limit m own m'' own'' leaves' :=
  ⟨second.owns,second.leaves,fun w low high => (second.beyond w low high).trans (first.beyond w low high),
    first.trades.trans second.trades⟩

end Changes

/-! One page. -/

section
variable {va v : Nat} {f : Frame} {rest : List Frame}

theorem Owns.userPage (owns : Owns m root limit own) (inside : v < limit) (valid : m.entry root (v * pgsize) &&& pteV ≠ 0) :
    own (pte2pa (m.entry root (v * pgsize))) = some (.user v) := (owns.user _ v).mpr ⟨inside,valid,rfl⟩

theorem Owns.notFree (owns : Owns m root limit own) {place : Place} (owned : own f = some place) : f ∉ m.freelist :=
  (owns.held f place owned).2.2

def Memory.freed (m : Memory) (f : Frame) : Memory := { m.fill f 1 with freelist := f :: m.freelist }

theorem mem_freed : g ∈ (m.freed f).freelist ↔ g = f ∨ g ∈ m.freelist := List.mem_cons

theorem Owns.kfree (owns : Owns m root limit own) (nobody : own f = none) (managed : m.first ≤ f ∧ f < m.last)
    (out : f ∉ m.freelist) : m.kfree f = .ok (m.freed f) ∧
      Owns (m.freed f) root limit own := by
  refine ⟨if_neg (not_or.mpr ⟨Nat.not_lt.mpr managed.1,Nat.not_le.mpr managed.2⟩),owns.outside (fun g path there => ?_) ⟨rfl,rfl⟩ ⟨owns.pool.first,owns.pool.last,fun g inside => ?_,?_⟩
    fun g place there inside => ?_⟩
  · have other : g ≠ f := by
      rintro rfl
      rw [nobody] at there
      cases there
    exact update_of_ne other ..
  · rcases List.mem_cons.mp inside with rfl | later
    · exact managed
    · exact owns.pool.range g later
  · exact List.nodup_cons.mpr ⟨out,owns.pool.nodup⟩
  · rcases List.mem_cons.mp inside with rfl | later
    · rw [nobody] at there
      cases there
    · exact owns.notFree there later

def Memory.loaded (m : Memory) (rest : List Frame) (f : Frame) (page : Page) : Memory :=
  ({ m with freelist := rest }.fill f 5).setPage f page

theorem loaded_page (other : g ≠ f) : (m.loaded rest f page).page g = m.page g := by
  simp [Memory.loaded,Memory.fill,Memory.setPage,other]

theorem loaded_self (page : Page) : (m.loaded rest f page).page f = page := update_self ..

/-- kalloc has given page f, and the tables on the way to va have been made or not. -/
structure Prepared (root : Frame) (m : Memory) (own : Frame → Option Place) (f : Frame) (page : Page) (m' : Memory)
    (own' : Frame → Option Place) : Prop where
  nobody : own' f = none
  out : f ∉ m'.freelist
  member : f ∈ m.freelist
  managed : m'.first ≤ f ∧ f < m'.last
  contents : m'.page f = page
  entries : ∀ w, m'.entry root w = m.entry root w
  conserves : ∀ g, g ≠ f → (g ∈ m'.freelist ∨ own' g ≠ none ↔ g ∈ m.freelist ∨ own g ≠ none)
  pages : ∀ g, (∀ path, own g ≠ some (.table path)) → g ∉ m.freelist → m'.page g = m.page g
  keeps : ∀ g place, own g = some place → own' g = some place
  bounds : m'.first = m.first ∧ m'.last = m.last

theorem Owns.prepare (owns : Owns m root limit own) (low : va < maxva) (page : Page) (free : m.freelist = f :: rest) :
    ∃ found m' own', Memory.walkFrom va true 2 root (m.loaded rest f page) = (found,m') ∧ Owns m' root limit own' ∧
      Prepared root m own f page m' own' ∧ ∀ t, found = some t → m'.tableFrom va 2 root = some t := by
  obtain ⟨owns1,nobody,out,managed⟩ := owns.take free (show (m.loaded rest f page).freelist = rest from rfl)
    (fun g other => loaded_page other) ⟨rfl,rfl⟩
  obtain ⟨found,m',own',walked,owns',grown,there⟩ := owns1.walkFrom low 2 owns1.rooted rfl
  have gone : ¬(f ∈ m'.freelist ∨ own' f ≠ none) := by
    rw [grown.conserves f]
    exact fun either => either.elim out fun owned => owned nobody
  have was : ∀ g place, own g = some place → g ≠ f := by
    rintro g place owned rfl
    rw [nobody] at owned
    cases owned
  refine ⟨found,m',own',walked,owns',⟨by_contra fun owned => gone (.inr owned),fun inside => gone (.inl inside),
    by rw [free]; exact List.mem_cons_self,?_,?_,fun w => ?_,fun g other => ?_,fun g table outside => ?_,grown.keeps,grown.bounds⟩,there⟩
  · rw [grown.bounds.1,grown.bounds.2]
    exact managed
  · rw [grown.pages f (fun path owned => by rw [nobody] at owned; cases owned) out]
    exact loaded_self page
  · exact (grown.entries w).trans
      (entries_of_tables owns.tree (fun g path owned => loaded_page (was g _ owned)) owns.rooted rfl)
  · rw [grown.conserves g,free,List.mem_cons]
    exact or_congr ⟨.inr,fun member => member.resolve_left other⟩ Iff.rfl
  · have other : g ≠ f := by
      rintro rfl
      exact outside (by rw [free]; exact List.mem_cons_self)
    have kept : g ∉ (m.loaded rest f page).freelist := fun inside => outside (by rw [free]; exact List.mem_cons_of_mem _ inside)
    rw [grown.pages g table kept,loaded_page other]

theorem Prepared.leaf (prepared : Prepared root m own f page m' own') (owns : Owns m root limit own)
    (inside : v < limit) :
    m'.leaf root v = m.leaf root v := by
  refine leaf_congr (prepared.entries _) fun valid => ?_
  have mine := owns.userPage inside valid
  exact prepared.pages _ (fun path there => by rw [mine] at there; cases there) (owns.notFree mine)

theorem newPage_none (free : m.freelist = []) :
    m.newPage root va perm contents = .ok (0,m) := by
  unfold Memory.newPage
  rw [Memory.kalloc,free]
  rfl

theorem newPage_cons (free : m.freelist = f :: rest) (positive : f ≠ 0) :
    m.newPage root va perm contents = match (m.loaded rest f (contents m.kalloc.2)).mappages root va pgsize f perm with
      | .error e => .error e
      | .ok (true,m) => .ok (f,m)
      | .ok (false,m) => (m.kfree f).map fun m => (0,m) := by
  unfold Memory.newPage
  rw [kalloc_cons free]
  exact if_neg positive

/-- A page that is not mapped gets one from kalloc, or nothing has changed. -/
theorem Owns.newPage (owns : Owns m root limit own) (inside : v < limit) (invalid : m.leaf root v = none)
    (flags : perm >>> 10 = 0) (contents : Memory → Page) : ∃ mem m' own',
      m.newPage root (v * pgsize) perm contents = .ok (mem,m') ∧ Changes root limit m own m' own'
        (if mem = 0 then m.leaf root else update (m.leaf root) v (some (perm ||| pteV,contents m.kalloc.2))) ∧
      ∀ g place, own g = some place → own' g = some place := by
  have low : v * pgsize < maxva := Nat.lt_of_lt_of_le (Nat.mul_lt_mul_of_pos_right inside (by decide)) owns.top
  have number : v * pgsize / pgsize = v := Nat.mul_div_cancel _ (by decide)
  rw [leaf_none] at invalid
  cases free : m.freelist with
  | nil => exact ⟨0,m,own,newPage_none free,by rw [if_pos rfl]; exact .refl owns,fun _ _ => id⟩
  | cons f rest =>
    obtain ⟨found,m1,own1,walked,owns1,prepared,there⟩ := owns.prepare low (contents m.kalloc.2) free
    have managed := owns.pool.range f prepared.member
    have positive : f ≠ 0 := Nat.ne_of_gt (Nat.lt_of_lt_of_le owns.pool.first managed.1)
    have small : f < 2^44 := Nat.lt_of_lt_of_le managed.2 owns.pool.last
    rw [newPage_cons free positive,mappages_walk (Nat.mul_mod_left ..) low walked]
    cases found with
    | none =>
      obtain ⟨freed,owns2⟩ := owns1.kfree prepared.nobody prepared.managed prepared.out
      refine ⟨0,_,own1,by dsimp only; rw [freed]; rfl,?_,prepared.keeps⟩
      rw [if_pos rfl]
      have page : ∀ g, g ≠ f → (m1.freed f).page g = m1.page g :=
        fun g other => update_of_ne other ..
      have entries : ∀ w, (m1.freed f).entry root w = m1.entry root w := by
        intro w
        refine entries_of_tables owns1.tree (fun g path owned => page g ?_) owns1.rooted rfl
        rintro rfl
        rw [prepared.nobody] at owned
        cases owned
      refine ⟨owns2,fun u inside' => ?_,fun w _ _ => (entries w).trans (prepared.entries w),fun g => ?_,fun g out nobody => ?_,
        prepared.bounds⟩
      · rw [← prepared.leaf owns inside']
        refine leaf_congr (entries _) fun valid => page _ ?_
        rintro same
        have mine := owns1.userPage inside' valid
        rw [same,prepared.nobody] at mine
        cases mine
      · grind [prepared.member,prepared.conserves,mem_freed]
      · rw [page g fun same => out (same ▸ prepared.member)]
        exact prepared.pages g (fun path owned => by rw [nobody] at owned; cases owned) out
    | some t =>
      have table := there t rfl
      have entry : m1.pte t (px 0 (v * pgsize)) = m.entry root (v * pgsize) := by
        rw [← prepared.entries,Memory.entry,Memory.entryFrom,table]
        rfl
      have leaf := owns1.leafTable table
      have other : f ≠ t := by
        rintro rfl
        rw [prepared.nobody] at leaf
        cases leaf
      have page : ∀ g, g ≠ t → (m1.setPte t (px 0 (v * pgsize)) (pa2pte f ||| perm ||| pteV)).page g = m1.page g :=
        fun g elsewhere => update_of_ne elsewhere ..
      have made := pte2pa_pa2pte small flags
      have owns2 := owns1.mapLeaf low (by rw [number]; exact inside) table
        (by rw [prepared.entries]; exact invalid) (valid_or (pa2pte f ||| perm)) made prepared.nobody prepared.managed prepared.out
      rw [number] at owns2
      refine ⟨f,_,update own1 f (some (.user v)),by dsimp only; rw [if_neg (by rw [entry]; exact not_not.mpr invalid)],?_,
        fun g place owned => ?_⟩
      · rw [if_neg positive]
        refine ⟨owns2,fun u inside' => ?_,fun w high past => ?_,fun g => ?_,fun g out nobody => ?_,prepared.bounds⟩
        · have stored := owns1.entry_at (pa2pte f ||| perm ||| pteV) low table inside'
          rw [number] at stored
          by_cases same : u = v
          · rw [if_pos same] at stored
            rw [same] at stored ⊢
            rw [Memory.leaf,stored,if_pos (valid_or _),update_self,pteFlags_made flags,made,page f other,prepared.contents]
          · rw [if_neg same] at stored
            rw [update_of_ne same,← prepared.leaf owns inside']
            refine leaf_congr stored fun valid => page _ ?_
            intro equal
            have mine := owns1.userPage inside' valid
            rw [equal,leaf] at mine
            cases mine
        · rw [entry_setPte owns1.tree low high table,number,if_neg (by omega),prepared.entries]
        · change g ∈ m1.freelist ∨ _ ↔ _
          by_cases same : g = f
          · rw [same,update_self]
            exact ⟨fun _ => .inl prepared.member,fun _ => .inr (by rintro ⟨⟩)⟩
          · rw [update_of_ne same]
            exact prepared.conserves g same
        · have table' : ∀ path, own g ≠ some (.table path) := fun path owned => by rw [nobody] at owned; cases owned
          have elsewhere : g ≠ t := by
            rintro rfl
            have same : g ≠ f := fun same => out (same ▸ prepared.member)
            rcases (prepared.conserves g same).mp (.inr (by rw [leaf]; rintro ⟨⟩)) with free' | owned
            · exact out free'
            · exact owned nobody
          rw [page g elsewhere]
          exact prepared.pages g table' out
      · grind [prepared.keeps,prepared.nobody]

/-- The kernel writes to a page of the user. -/
theorem Owns.setUser {old : Page} (owns : Owns m root limit own) (inside : v < limit)
    (leaf : m.leaf root v = some (flags,old)) (page : Page) : Changes root limit m own
      (m.setPage (pte2pa (m.entry root (v * pgsize))) page) own (update (m.leaf root) v (some (flags,page))) := by
  unfold Memory.leaf at leaf
  split_ifs at leaf with valid
  cases leaf
  have mine := owns.userPage inside valid
  generalize place : pte2pa (m.entry root (v * pgsize)) = f at mine
  have same : ∀ g, g ≠ f → (m.setPage f page).page g = m.page g := fun g other => update_of_ne other ..
  have tables : ∀ g path, own g = some (.table path) → (m.setPage f page).page g = m.page g := by
    intro g path there
    refine same g ?_
    rintro rfl
    rw [mine] at there
    cases there
  have entries : ∀ w, (m.setPage f page).entry root w = m.entry root w := fun w => entries_of_tables owns.tree tables owns.rooted rfl
  refine ⟨owns.outside tables ⟨rfl,rfl⟩ ⟨owns.pool.first,owns.pool.last,owns.pool.range,owns.pool.nodup⟩ fun g place there => owns.notFree there,
    fun u below => ?_,fun w _ _ => entries w,fun _ => Iff.rfl,fun g out nobody => same g ?_,rfl,rfl⟩
  · by_cases here : u = v
    · rw [here,update_self,Memory.leaf,entries,if_pos valid,place]
      exact congrArg (fun page => some (_,page)) (update_self ..)
    · rw [update_of_ne here]
      refine leaf_congr (entries _) fun valid' => same _ ?_
      intro equal
      have other := owns.userPage below valid'
      rw [equal,mine] at other
      cases other
      exact here rfl
  · rintro rfl
    rw [nobody] at mine
    cases mine

theorem keep_low {pte : Pte} : (pte &&& ~~~pteU) &&& pteV = pte &&& pteV ∧ pte2pa (pte &&& ~~~pteU) = pte2pa pte ∧
    pteFlags (pte &&& ~~~pteU) = pteFlags pte &&& ~~~pteU := by
  refine ⟨?_,?_,?_⟩
  · rw [BitVec.and_assoc]
    rfl
  · have high : (pte &&& ~~~pteU) >>> 10 = pte >>> 10 := by
      apply BitVec.eq_of_getLsbD_eq
      intro i _
      rw [BitVec.getLsbD_ushiftRight,BitVec.getLsbD_ushiftRight,BitVec.getLsbD_and,BitVec.getLsbD_not]
      have four : pteU = BitVec.twoPow 64 4 := by decide
      rw [four,BitVec.getLsbD_twoPow,decide_eq_false (show ¬4 = 10 + i by omega)]
      by_cases inside : 10 + i < 64
      · simp [inside]
      · rw [BitVec.getLsbD_of_ge _ _ (Nat.not_lt.mp inside),Bool.false_and]
    rw [pte2pa,pte2pa,high]
  · rw [pteFlags,pteFlags,BitVec.and_assoc,BitVec.and_assoc,BitVec.and_comm (~~~pteU)]

/-- uvmclear takes a page away from the user. -/
theorem Owns.uvmclear (owns : Owns m root limit own) (inside : v < limit)
    (leaf : m.leaf root v = some (flags,page)) : ∃ m', m.uvmclear root (v * pgsize) = .ok m' ∧
      Changes root limit m own m' own (update (m.leaf root) v (some (flags &&& ~~~pteU,page))) := by
  have low : v * pgsize < maxva := Nat.lt_of_lt_of_le (Nat.mul_lt_mul_of_pos_right inside (by decide)) owns.top
  have number : v * pgsize / pgsize = v := Nat.mul_div_cancel _ (by decide)
  unfold Memory.leaf at leaf
  split_ifs at leaf with valid
  cases leaf
  unfold Memory.uvmclear
  rw [m.walk_false root low]
  cases found : m.tableFrom (v * pgsize) 2 root with
  | none =>
    rw [Memory.entry,Memory.entryFrom,found] at valid
    exact absurd BitVec.zero_and valid
  | some t =>
    have entry : m.entry root (v * pgsize) = m.pte t (px 0 (v * pgsize)) := by
      rw [Memory.entry,Memory.entryFrom,found]
      rfl
    dsimp only [Option.map_some]
    rw [← entry]
    obtain ⟨bit,place,rest⟩ := @keep_low (m.entry root (v * pgsize))
    have leafTable := owns.leafTable found
    refine ⟨_,rfl,owns.setFlags low found (by rw [bit]) place,fun u below => ?_,fun w high past => ?_,fun _ => Iff.rfl,fun g _ nobody => ?_,
      rfl,rfl⟩
    · have page : ∀ g, g ≠ t → (m.setPte t (px 0 (v * pgsize)) (m.entry root (v * pgsize) &&& ~~~pteU)).page g = m.page g :=
        fun g elsewhere => update_of_ne elsewhere ..
      have notTable : ∀ u < limit, m.entry root (u * pgsize) &&& pteV ≠ 0 → pte2pa (m.entry root (u * pgsize)) ≠ t := by
        intro u below valid equal
        have mine := owns.userPage below valid
        rw [equal,leafTable] at mine
        cases mine
      have stored := owns.entry_at (m.entry root (v * pgsize) &&& ~~~pteU) low found below
      rw [number] at stored
      by_cases same : u = v
      · rw [if_pos same] at stored
        rw [same] at stored ⊢
        rw [Memory.leaf,stored,bit,if_pos valid,update_self,rest,place,page _ (notTable v inside valid)]
      · rw [if_neg same] at stored
        rw [update_of_ne same]
        exact leaf_congr stored fun valid' => page _ (notTable u below valid')
    · rw [entry_setPte owns.tree low high found,number,if_neg (by omega)]
    · refine update_of_ne ?_ ..
      rintro rfl
      rw [nobody] at leafTable
      cases leafTable

/-- A page is unmapped and freed if it was there. -/
theorem Owns.unmapPage (owns : Owns m root limit own) (inside : v < limit) : ∃ m' own',
    m.unmapPage root (v * pgsize) true = .ok m' ∧ Changes root limit m own m' own' (update (m.leaf root) v none) ∧
      ∀ f place, own' f = some place → own f = some place := by
  have low : v * pgsize < maxva := Nat.lt_of_lt_of_le (Nat.mul_lt_mul_of_pos_right inside (by decide)) owns.top
  have number : v * pgsize / pgsize = v := Nat.mul_div_cancel _ (by decide)
  unfold Memory.unmapPage
  rw [m.walk_false root low]
  have absent : m.entry root (v * pgsize) &&& pteV = 0 → Changes root limit m own m own (update (m.leaf root) v none) := by
    intro invalid
    refine (Changes.refl owns).congr fun u _ => ?_
    by_cases same : u = v
    · rw [same,update_self,leaf_none]
      exact invalid
    · rw [update_of_ne same]
  cases found : m.tableFrom (v * pgsize) 2 root with
  | none =>
    refine ⟨m,own,rfl,absent ?_,fun _ _ => id⟩
    rw [Memory.entry,Memory.entryFrom,found]
    exact BitVec.zero_and
  | some t =>
    have entry : m.entry root (v * pgsize) = m.pte t (px 0 (v * pgsize)) := by
      rw [Memory.entry,Memory.entryFrom,found]
      rfl
    dsimp only [Option.map_some]
    by_cases invalid : m.pte t (px 0 (v * pgsize)) &&& pteV = 0
    · rw [if_pos invalid]
      exact ⟨m,own,rfl,absent (by rw [entry]; exact invalid),fun _ _ => id⟩
    rw [if_neg invalid,if_pos rfl,← entry]
    rw [← entry] at invalid
    obtain ⟨mine,owns1⟩ := owns.unmapLeaf low (by rw [number]; exact inside) found invalid
    generalize page_eq : pte2pa (m.entry root (v * pgsize)) = f at mine owns1 ⊢
    rw [number] at mine
    obtain ⟨first,last,out⟩ := owns.held f _ mine
    obtain ⟨-,owns2⟩ := owns1.kfree (update_self ..) ⟨first,last⟩ out
    have leaf := owns.leafTable found
    have other : t ≠ f := by
      rintro rfl
      rw [mine] at leaf
      cases leaf
    have freed : m.kfree f = .ok (m.freed f) :=
      if_neg (not_or.mpr ⟨Nat.not_lt.mpr first,Nat.not_le.mpr last⟩)
    rw [freed]
    -- the entry is cleared after the page has been freed; the order does not matter
    have swap : (m.freed f).setPte t (px 0 (v * pgsize)) 0 =
        (m.setPte t (px 0 (v * pgsize)) 0).freed f := by
      simp only [Memory.freed,Memory.setPte,Memory.fill,Memory.setPage,Memory.mk.injEq,and_true]
      rw [update_of_ne other,update_comm other]
    refine ⟨(m.setPte t (px 0 (v * pgsize)) 0).freed f,update own f none,congrArg Except.ok swap,?_,fun g place owned => ?_⟩
    swap
    · by_cases same : g = f
      · rw [same,update_self] at owned
        cases owned
      · rwa [update_of_ne same] at owned
    have page : ∀ g, g ≠ t → g ≠ f → ((m.setPte t (px 0 (v * pgsize)) 0).freed f).page g =
        m.page g := by
      intro g elsewhere apart
      exact (update_of_ne apart ..).trans (update_of_ne elsewhere ..)
    have entries : ∀ w, ((m.setPte t (px 0 (v * pgsize)) 0).freed f).entry root w =
        (m.setPte t (px 0 (v * pgsize)) 0).entry root w := by
      intro w
      refine entries_of_tables owns1.tree (fun g path owned => update_of_ne ?_ ..) owns1.rooted rfl
      rintro rfl
      rw [update_self] at owned
      cases owned
    refine ⟨owns2,fun u inside' => ?_,fun w high past => ?_,fun g => ?_,fun g out' nobody => ?_,rfl,rfl⟩
    · have stored := owns.entry_at 0 low found inside'
      rw [number,← entries] at stored
      by_cases same : u = v
      · rw [same] at stored ⊢
        rw [if_pos rfl] at stored
        rw [update_self,leaf_none,stored]
        rfl
      · rw [if_neg same] at stored
        rw [update_of_ne same]
        refine leaf_congr stored fun valid => ?_
        have user := owns.userPage inside' valid
        refine page _ ?_ ?_
        · intro equal
          rw [equal,leaf] at user
          cases user
        · intro equal
          rw [equal,mine] at user
          cases user
          exact same rfl
    · rw [entries,entry_setPte owns.tree low high found,number,if_neg (by omega)]
    · rw [mem_freed]
      by_cases same : g = f
      · rw [same,update_self,mine]
        exact ⟨fun _ => .inr (by rintro ⟨⟩),fun _ => .inl (.inl rfl)⟩
      · rw [update_of_ne same]
        exact or_congr ⟨fun member => member.resolve_left same,.inr⟩ Iff.rfl
    · refine page g ?_ ?_
      · rintro rfl
        rw [nobody] at leaf
        cases leaf
      · rintro rfl
        rw [nobody] at mine
        cases mine

end

/-! Ranges of pages. -/

def npages (sz : Nat) : Nat := (sz + pgsize - 1) / pgsize

theorem npages_mul (n : Nat) : npages (n * pgsize) = n := by
  rw [npages,Nat.add_sub_assoc (by decide),Nat.add_comm,Nat.add_mul_div_right _ _ (by decide),Nat.div_eq_of_lt (by decide),Nat.zero_add]

theorem npages_le {sz' : Nat} (le : sz ≤ sz') : npages sz ≤ npages sz' := Nat.div_le_div_right (by omega)

theorem lt_npages {v : Nat} : v < npages sz ↔ v * pgsize < sz := by
  rw [npages,Nat.lt_div_iff_mul_lt (by decide)]
  have page : 0 < pgsize := by decide
  omega

theorem pgroundup_eq (small : sz ≤ maxva) : pgroundup sz = npages sz * pgsize := by
  rw [pgroundup,Nat.mod_eq_of_lt (by simp only [pgsize,maxva] at *; omega),npages]

theorem npages_top (small : sz ≤ maxva) : npages sz * pgsize ≤ maxva := by
  simp only [npages,pgsize,maxva] at *
  omega

section
variable {lo turns : Nat}

theorem Owns.unmapFrom (owns : Owns m root limit own) (fits : lo + turns ≤ limit) : ∃ m' own',
    Memory.unmapFrom root true turns (lo * pgsize) m = .ok m' ∧
      Changes root limit m own m' own' (fun v => if lo ≤ v ∧ v < lo + turns then none else m.leaf root v) ∧
      ∀ f place, own' f = some place → own f = some place := by
  induction turns generalizing m own lo with
  | zero =>
    refine ⟨m,own,rfl,(Changes.refl owns).congr fun v _ => ?_,fun _ _ => id⟩
    rw [if_neg (by omega)]
  | succ turns ih =>
    obtain ⟨m1,own1,unmapped,first,loses1⟩ := owns.unmapPage (show lo < limit by omega)
    obtain ⟨m2,own2,rest,second,loses2⟩ := ih first.owns (show lo + 1 + turns ≤ limit by omega)
    refine ⟨m2,own2,?_,(first.trans second).congr fun v inside => ?_,fun f place owned => loses1 f place (loses2 f place owned)⟩
    · rw [Memory.unmapFrom,unmapped]
      rw [Nat.succ_mul] at rest
      exact rest
    · grind [first.leaves,update_apply]

theorem unmap_turns (fits : (lo + turns) * pgsize ≤ maxva) :
    ((lo * pgsize + turns * pgsize) % 2^64 - lo * pgsize) / pgsize = turns := by
  rw [← Nat.add_mul,Nat.mod_eq_of_lt (Nat.lt_of_le_of_lt fits (by decide)),Nat.add_mul,Nat.add_sub_cancel_left,
    Nat.mul_div_cancel _ (by decide)]

theorem Owns.uvmunmap (owns : Owns m root limit own) (fits : lo + turns ≤ limit) : ∃ m' own',
    m.uvmunmap root (lo * pgsize) turns true = .ok m' ∧
      Changes root limit m own m' own' (fun v => if lo ≤ v ∧ v < lo + turns then none else m.leaf root v) ∧
      ∀ f place, own' f = some place → own f = some place := by
  have top : (lo + turns) * pgsize ≤ maxva := (Nat.mul_le_mul_right _ fits).trans owns.top
  unfold Memory.uvmunmap
  rw [if_neg (not_not.mpr (Nat.mul_mod_left ..)),unmap_turns top]
  exact owns.unmapFrom fits

theorem signExtend_small {n : Nat} (small : n < 2^31) : ((BitVec.ofNat 32 n).signExtend 64).toNat = n := by
  have msb : (BitVec.ofNat 32 n).msb = false := by
    rw [BitVec.msb_eq_false_iff_two_mul_lt,BitVec.toNat_ofNat]
    omega
  rw [BitVec.signExtend_eq_setWidth_of_msb_false msb,BitVec.toNat_setWidth,BitVec.toNat_ofNat]
  omega

/-- The pages from newsz on are freed. -/
theorem Owns.uvmdealloc (newsz : Nat) (owns : Owns m root limit own) (small : oldsz ≤ maxva)
    (fits : npages oldsz ≤ limit) :
    ∃ m' own', m.uvmdealloc root oldsz newsz = .ok (min oldsz newsz,m') ∧
      Changes root limit m own m' own' (fun v => if npages newsz ≤ v ∧ v < npages oldsz then none else m.leaf root v) ∧
      ∀ f place, own' f = some place → own f = some place := by
  unfold Memory.uvmdealloc
  have same : npages oldsz ≤ npages newsz →
      Changes root limit m own m own fun v => if npages newsz ≤ v ∧ v < npages oldsz then none else m.leaf root v := by
    intro empty
    refine (Changes.refl owns).congr fun v _ => ?_
    rw [if_neg (by omega)]
  by_cases more : oldsz ≤ newsz
  · rw [if_pos more,Nat.min_eq_left more]
    exact ⟨m,own,rfl,same (npages_le more),fun _ _ => id⟩
  rw [if_neg more,Nat.min_eq_right (by omega),pgroundup_eq small,pgroundup_eq (show newsz ≤ maxva by omega)]
  by_cases fewer : npages newsz * pgsize < npages oldsz * pgsize
  · have lower : npages newsz < npages oldsz := Nat.lt_of_mul_lt_mul_right fewer
    have top := npages_top small
    have count : npages oldsz - npages newsz < 2^31 := by
      simp only [pgsize,maxva] at top
      omega
    rw [if_pos fewer]
    dsimp only
    rw [← Nat.sub_mul,Nat.mul_div_cancel _ (by decide),signExtend_small count]
    obtain ⟨m',own',unmapped,changes,loses⟩ := owns.uvmunmap (show npages newsz + (npages oldsz - npages newsz) ≤ limit by omega)
    rw [unmapped]
    refine ⟨m',own',rfl,changes.congr fun v _ => ?_,loses⟩
    rw [Nat.add_sub_of_le (Nat.le_of_lt lower)]
  · rw [if_neg fewer]
    exact ⟨m,own,rfl,same (Nat.le_of_mul_le_mul_right (Nat.not_lt.mp fewer) (by decide)),fun _ _ => id⟩

def blank (xperm : Pte) : Pte × Page := (pteR ||| pteU ||| xperm ||| pteV,fun _ => 0)

/-- A page that has been made is one free page less. -/
theorem Owns.takes {v : Nat} {made : Pte × Page} (owns : Owns m root limit own) (inside : v < limit) (invalid : m.leaf root v = none)
    (changes : Changes root limit m own m' own' (update (m.leaf root) v (some made)))
    (keeps : ∀ g place, own g = some place → own' g = some place) : m'.freelist.length < m.freelist.length := by
  have valid : m'.entry root (v * pgsize) &&& pteV ≠ 0 := by
    intro invalid'
    have leaf := changes.leaves v inside
    rw [leaf_none.mpr invalid',update_self] at leaf
    cases leaf
  have mine := changes.owns.userPage inside valid
  generalize pte2pa (m'.entry root (v * pgsize)) = f at mine
  have before : own f = none := by
    cases there : own f with
    | none => rfl
    | some place =>
      have kept := keeps f place there
      rw [mine] at kept
      cases kept
      exact absurd (leaf_none.mp invalid) ((owns.user f v).mp there).2.1
  have taken : f ∈ m.freelist := ((changes.trades.conserves f).mp (.inr (by rw [mine]; nofun))).resolve_right fun owned => owned before
  have subset : ∀ g ∈ f :: m'.freelist, g ∈ m.freelist := by
    intro g member
    rcases List.mem_cons.mp member with rfl | free
    · exact taken
    · refine ((changes.trades.conserves g).mp (.inl free)).resolve_right fun owned => ?_
      obtain ⟨place,there⟩ := Option.ne_none_iff_exists'.mp owned
      exact changes.owns.notFree (keeps g place there) free
  exact (List.subperm_of_subset (List.nodup_cons.mpr ⟨changes.owns.notFree mine,changes.owns.pool.nodup⟩) subset).length_le

/-- The pages are made, as many as are free at most, or those from base on are
given back. -/
theorem Owns.growFrom {base : Nat} (flags : xperm >>> 10 = 0) (owns : Owns m root limit own) (past : base ≤ lo)
    (fits : ∀ k < turns, k ≤ m.freelist.length → lo + k < limit) (below : lo ≤ limit)
    (empty : ∀ v, lo ≤ v → v < lo + turns → v < limit → m.leaf root v = none) : ∃ ok m' own',
    Memory.growFrom root xperm (base * pgsize) turns (lo * pgsize) m = .ok (ok,m') ∧ Changes root limit m own m' own'
      (if ok = true then fun v => if lo ≤ v ∧ v < lo + turns then some (blank xperm) else m.leaf root v
        else fun v => if base ≤ v ∧ v < lo then none else m.leaf root v) ∧
      (ok = true → turns + m'.freelist.length ≤ m.freelist.length) := by
  have perm : (pteR ||| pteU ||| xperm) >>> 10 = 0 := by
    rw [BitVec.ushiftRight_or_distrib,flags]
    rfl
  induction turns generalizing m own lo with
  | zero =>
    refine ⟨true,m,own,rfl,?_,fun _ => Nat.le_of_eq (Nat.zero_add _)⟩
    rw [if_pos rfl]
    refine (Changes.refl owns).congr fun v _ => ?_
    rw [if_neg (by omega)]
  | succ turns ih =>
    have inside : lo < limit := fits 0 (Nat.succ_pos _) (Nat.zero_le _)
    have absent := empty lo (Nat.le_refl _) (by omega) inside
    obtain ⟨mem,m1,own1,made,first,keeps⟩ := owns.newPage inside absent perm fun _ _ => 0
    rw [Memory.growFrom,made]
    by_cases none : mem = 0
    · rw [if_pos none] at first
      have small : lo * pgsize ≤ maxva := (Nat.mul_le_mul_right _ below).trans owns.top
      obtain ⟨m2,own2,freed,second,-⟩ := first.owns.uvmdealloc (base * pgsize) small (by rw [npages_mul]; omega)
      refine ⟨false,m2,own2,?_,?_,nofun⟩
      · change (if mem = 0 then _ else _) = _
        rw [if_pos none,freed]
        rfl
      · rw [if_neg (by decide)]
        refine (first.trans second).congr fun v inside => ?_
        rw [npages_mul,npages_mul,first.leaves v inside]
    · rw [if_neg none] at first
      have fewer := owns.takes inside absent first keeps
      have empty1 : ∀ v, lo + 1 ≤ v → v < lo + 1 + turns → v < limit → m1.leaf root v = Option.none := by
        intro v low high within
        rw [first.leaves v within,update_of_ne (by omega)]
        exact empty v (by omega) (by omega) within
      obtain ⟨ok,m2,own2,grown,second,taken⟩ := ih first.owns (by omega)
        (fun k less some => by have next := fits (k + 1) (by omega) (by omega); omega) inside empty1
      refine ⟨ok,m2,own2,?_,?_,fun done => ?_⟩
      · change (if mem = 0 then _ else _) = _
        rw [if_neg none]
        rw [Nat.succ_mul] at grown
        exact grown
      · cases ok with
        | true =>
          rw [if_pos rfl] at second ⊢
          refine (first.trans second).congr fun v inside => ?_
          rw [first.leaves v inside]
          by_cases here : v = lo
          · rw [if_neg (by omega),if_pos (by omega),here,update_self]
            rfl
          · grind [update_apply]
        | false =>
          rw [if_neg (by decide)] at second ⊢
          refine (first.trans second).congr fun v inside' => ?_
          rw [first.leaves v inside']
          by_cases here : v = lo
          · rw [if_pos (by omega),if_neg (by omega),here,absent]
          · rw [update_of_ne here]
            by_cases later : base ≤ v ∧ v < lo + 1
            · rw [if_pos later,if_pos (by omega)]
            · rw [if_neg later,if_neg (by omega)]
      · have rest := taken done
        omega

/-- The pages up to newsz are made, or nothing has changed. -/
theorem Owns.uvmalloc {newsz : Nat} (flags : xperm >>> 10 = 0) (owns : Owns m root limit own) (more : oldsz ≤ newsz)
    (small : oldsz ≤ maxva) (below : npages oldsz ≤ limit) (fits : npages newsz ≤ limit ∨ npages oldsz + m.freelist.length < limit)
    (empty : ∀ v, npages oldsz ≤ v → v < npages newsz → v < limit → m.leaf root v = none) : ∃ ok m' own',
    m.uvmalloc root oldsz newsz xperm = .ok (if ok = true then newsz else 0,m') ∧ Changes root limit m own m' own'
      (if ok = true then fun v => if npages oldsz ≤ v ∧ v < npages newsz then some (blank xperm) else m.leaf root v
        else m.leaf root) ∧
      (ok = true → npages newsz + m'.freelist.length ≤ npages oldsz + m.freelist.length) := by
  have le := npages_le more
  have turns : (newsz - npages oldsz * pgsize + pgsize - 1) / pgsize = npages newsz - npages oldsz := by
    simp only [npages,pgsize] at *
    omega
  have enough : ∀ k < npages newsz - npages oldsz, k ≤ m.freelist.length → npages oldsz + k < limit := by
    intro k less some
    rcases fits with fits | fits <;> omega
  obtain ⟨ok,m',own',grown,changes,taken⟩ := owns.growFrom flags (Nat.le_refl (npages oldsz)) enough below
    fun v low high within => empty v low (by omega) within
  refine ⟨ok,m',own',?_,?_,fun done => ?_⟩
  · unfold Memory.uvmalloc
    rw [if_neg (by omega),pgroundup_eq small,turns,grown]
    rfl
  · grind [changes.congr]
  · have rest := taken done
    omega

end

end Xv6.Vm
