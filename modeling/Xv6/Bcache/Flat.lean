import Xv6.Bcache.Shape

/-! The buffer cache and the log together are a flat store of blocks. A changed
block stays in the cache, pinned once, from its first log_write until
install_trans has written it to its home, so that evicting an unused buffer
never loses anything. -/
namespace Xv6.Bcache
open Lib Lib.Count Function List
open Log (Block Disk logArea)

variable {P : Type*} [DecidableEq P] [Fintype P]
variable {d : Bool} {tail : Nat} {stage : Stage} {u : Use}
variable {c c' : Cache} {use : Party P → Use} {pins : List Nat} {h : Party P} {i : BufId} {b : Nat}

def pending (s : State P) : List Nat :=
  match s.stage with
  | .install tail => s.lh.drop tail
  | .installed tail => s.lh.drop (tail + 1)
  | _ => s.lh

structure Contents (start : Nat) (disk : Disk) (c : Cache) (use : Party P → Use) (store : Disk) (pins : List Nat) : Prop where
  home : ∀ i b, (c.buf i).block = some b → (c.buf i).valid = true → ¬logArea start b →
    (∃ h, use h = .holding i b true) ∨ (c.buf i).data = store b
  log : ∀ i b, (c.buf i).block = some b → (c.buf i).valid = true → logArea start b → (c.buf i).data = disk b
  settled : ∀ b, ¬logArea start b → b ∉ pins → disk b = store b

def Fits (start : Nat) (s : State P) : Party P → Use → Prop
  | .inl _, u => (∀ i b, u.target = some (i,b) → ¬logArea start b) ∧ (s.stage ≠ .none → u.isDirty = false)
  | .inr home, u => (∀ i b, u.target = some (i,b) → wants start s home = some b) ∧ u.isDirty = false

def Stage.Bounds (n : Nat) : Stage → Prop
  | .none => True
  | .log tail | .logged tail | .install tail | .installed tail => tail < n
  | .head | .headed => 0 < n
  | .clear | .cleared => n = 0

def copied (s : State P) : Nat :=
  match s.stage with
  | .log tail => tail
  | .logged tail => tail + 1
  | .head | .headed | .install _ | .installed _ => s.lh.length
  | _ => 0

/-- The invariant of the cache, its clients and commit(). -/
structure Inv (initial : Disk) (start : Nat) (s : State P) : Prop where
  shape : Shape s.cache s.use (pending s)
  contents : Contents start s.disk s.cache s.use (flat initial s.trace) (pending s)
  trace : FlatTrace initial s.trace
  fits : ∀ h, Fits start s h (s.use h)
  home : ∀ b ∈ s.lh, ¬logArea start b
  distinct : s.lh.Nodup
  short : s.lh.length ≤ logBlocks
  inside : s.stage.Bounds s.lh.length
  copies : ∀ t b, t < copied s → s.lh[t]? = some b → s.disk (start + t + 1) = flat initial s.trace b
  pins : ∀ b, s.pins b = s.unpins b + if b ∈ pending s then 1 else 0

variable {initial disk store : Disk} {start : Nat} {s s' : State P}

omit [Fintype P] in
theorem Contents.move (contents : Contents start disk c use store pins) (clean : (use h).isDirty = false)
    (bufs : ∀ j b, (c'.buf j).block = some b → (c'.buf j).valid = true →
      ((c.buf j).block = some b ∧ (c.buf j).valid = true ∧ (c'.buf j).data = (c.buf j).data) ∨
        ((c'.buf j).data = disk b ∧ b ∉ pins)) : Contents start disk c' (update use h u) store pins := by
  refine ⟨fun j b here ok home => ?_,fun j b here ok log => ?_,contents.settled⟩
  · rcases bufs j b here ok with ⟨before,valid,data⟩ | ⟨data,unpinned⟩
    · rcases contents.home j b before valid home with ⟨h',dirty⟩ | stored
      · refine .inl ⟨h',?_⟩
        rw [update_of_ne (by rintro rfl; rw [dirty] at clean; cases clean)]
        exact dirty
      · exact .inr (data.trans stored)
    · exact .inr (data.trans (contents.settled b home unpinned))
  · grind [contents.log]

theorem flat_append (initial : Disk) (trace more : List Event) :
    flat initial (trace ++ more) = flat (flat initial trace) more := foldl_append

theorem Inv.move (inv : Inv initial start s) {cache : Cache} {trace : List Event}
    (shape : Shape cache (update s.use h u) (pending s))
    (contents : Contents start s.disk cache (update s.use h u) (flat initial s.trace) (pending s))
    (store : flat initial trace = flat initial s.trace) (traced : FlatTrace initial trace) (fits : Fits start s h u) :
    Inv initial start ({ s with cache := cache, trace := trace }.goto h u) := by
  refine ⟨shape,?_,traced,fun h' => ?_,inv.home,inv.distinct,inv.short,inv.inside,?_,inv.pins⟩
  · change Contents _ _ _ _ (flat initial trace) _
    rw [store]
    exact contents
  · change Fits start s h' (update s.use h u h')
    rw [update_apply]
    split_ifs with isMe
    · rw [isMe]
      exact fits
    · exact inv.fits h'
  · change ∀ t b, t < copied s → s.lh[t]? = some b → s.disk (start + t + 1) = flat initial trace b
    rw [store]
    exact inv.copies

theorem get_inv (inv : Inv initial start s) {victim : BufId} (stepped : get start s h b victim = some s') :
    Inv initial start s' := by
  unfold get at stepped
  split_ifs at stepped with asked
  obtain ⟨idle,asks,free⟩ := asked
  have clean : (s.use h).isDirty = false := by rw [idle]; rfl
  have fits : ∀ i, Fits start s h (.waiting i b) := by
    intro i
    cases h with
    | inl p =>
      refine ⟨fun i' b' at_ => ?_,fun _ => rfl⟩
      cases at_
      exact asks
    | inr home =>
      refine ⟨fun i' b' at_ => ?_,rfl⟩
      cases at_
      exact asks.2.1
  cases found : s.cache.find b with
  | some i =>
    have here := Cache.find_some found
    rw [Cache.bgetWith_hit (some victim) here] at stepped
    cases stepped
    have rest := fun j => addRef_rest s.cache i j 1
    refine inv.move (inv.shape.move (fun j => (rest j).1) (fun i' b' at_ => ?_) (fun j => ?_) (fun j => ?_)
      (fun j ok => (rest j).2.1 ▸ ok) (fun j locks => by cases locks)) ?_ rfl inv.trace (fits i)
    · cases at_
      exact here
    · rw [Cache.addRef_buf]
      by_cases isMe : j = i
      · simp [idle,isMe]
      · simp [idle,isMe,Ne.symm isMe]
    · rw [(rest j).2.2.1,idle]
      rfl
    · grind [inv.contents.move]
  | none =>
    have absent := Cache.find_none found
    have zero : (s.cache.buf victim).refcnt = 0 := by simpa [found] using free
    rw [Cache.bgetWith_miss absent] at stepped
    cases stepped
    refine inv.move (inv.shape.miss idle zero absent) (inv.contents.move clean fun j b' there ok => ?_) rfl inv.trace (fits victim)
    rw [Cache.recycle_buf] at there ok ⊢
    by_cases isMe : j = victim
    · rw [if_pos isMe] at ok
      cases ok
    · rw [if_neg isMe] at there ok ⊢
      exact .inl ⟨there,ok,rfl⟩

omit [DecidableEq P] [Fintype P] in
theorem Fits.same_target {v : Use} (fits : Fits start s h u) (target : v.target = u.target)
    (clean : v.isDirty = false) :
    Fits start s h v := by
  cases h with
  | inl p => exact ⟨fun i b at_ => fits.1 i b (target ▸ at_),fun _ => clean⟩
  | inr home => exact ⟨fun i b at_ => fits.1 i b (target ▸ at_),clean⟩

def taken (s : State P) (i : BufId) (b : Nat) : Cache :=
  (s.cache.set i { s.cache.buf i with locked := true } rfl).fill s.disk i b

omit [DecidableEq P] [Fintype P] in
theorem taken_buf (s : State P) (i j : BufId) (b : Nat) : (taken s i b).buf j =
    if j = i then { s.cache.buf i with
      locked := true, valid := true, data := if (s.cache.buf i).valid then (s.cache.buf i).data else s.disk b }
    else s.cache.buf j := by
  by_cases isMe : j = i <;> cases ok : (s.cache.buf i).valid <;> simp [taken,Cache.fill,isMe,ok]

theorem acquire_inv (inv : Inv initial start s) (stepped : acquire s h = some s') : Inv initial start s' := by
  unfold acquire at stepped
  cases at_ : s.use h with
  | waiting i b =>
    rw [at_] at stepped
    have here := inv.shape.target h i b (by rw [at_]; rfl)
    have clean : (s.use h).isDirty = false := by rw [at_]; rfl
    cases locked : (s.cache.buf i).locked with
    | true => simp [Cache.acquiresleep,locked] at stepped
    | false =>
      simp only [Cache.acquiresleep_free locked] at stepped
      change some ({ s with cache := taken s i b, trace := s.trace ++ returned h b ((taken s i b).buf i).data }.goto h _) = _ at stepped
      cases stepped
      have unpinned : (s.cache.buf i).valid = false → b ∉ pending s := by grind [inv.shape.cached,s.cache.unique]
      have shape : Shape (taken s i b) (update s.use h (.holding i b false)) (pending s) := by
        refine inv.shape.move (fun j => ?_) (fun i' b' target => ?_) (fun j => ?_) (fun j => ?_) (fun j ok => ?_) (fun j locks => ?_)
        · by_cases isMe : j = i <;> simp [taken_buf,isMe]
        · cases target
          exact here
        · by_cases isMe : j = i <;> simp [taken_buf,isMe,at_]
        · grind [taken_buf,Use.locks]
        · by_cases isMe : j = i <;> simp [taken_buf,isMe,ok]
        · rw [taken_buf,if_pos (by simpa [Use.locks,eq_comm] using locks)]
      have contents : Contents start s.disk (taken s i b) (update s.use h (.holding i b false)) (flat initial s.trace) (pending s) := by
        grind [inv.contents.move,taken_buf,Inv,update_apply]
      have stored : h.isLeft = true → ((taken s i b).buf i).data = flat initial s.trace b := by
        intro client
        have home : ¬logArea start b := by
          cases h with
          | inl p => exact (inv.fits (.inl p)).1 i b (by rw [at_]; rfl)
          | inr _ => cases client
        rcases contents.home i b (by simpa [taken_buf] using here) (by simp [taken_buf]) home with ⟨h',dirty⟩ | same
        · have isMe : h' = h := shape.one (i := i) (by rw [dirty]; simp [Use.locks]) (by simp [Use.locks])
          rw [isMe,update_self] at dirty
          cases dirty
        · exact same
      have fits : Fits start s h (.holding i b false) := (inv.fits h).same_target (by rw [at_]; rfl) rfl
      cases h with
      | inl p =>
        refine inv.move shape contents ?_ ?_ fits
        · rw [returned,flat_append]
          rfl
        · rw [returned,stored rfl]
          exact .read _ b inv.trace
      | inr home =>
        rw [returned,append_nil]
        exact inv.move shape contents rfl inv.trace fits
  | _ => rw [at_] at stepped; cases stepped

theorem unlock_inv (inv : Inv initial start s) (stepped : unlock s h = some s') : Inv initial start s' := by
  unfold unlock at stepped
  split at stepped
  next i b at_ =>
    split_ifs at stepped
    cases stepped
    have here := inv.shape.target h i b (by rw [at_]; rfl)
    have locked := inv.shape.locked (h := h) (i := i) (by rw [at_]; simp [Use.locks])
    refine inv.move (inv.shape.move (fun j => ?_) (fun i' b' target => ?_) (fun j => ?_) (fun j => ?_) (fun j ok => ?_)
      (fun j locks => by cases locks)) (inv.contents.move (by rw [at_]; rfl) fun j b' there ok => .inl ?_) rfl inv.trace
      ((inv.fits h).same_target (by rw [at_]; rfl) rfl)
    · by_cases isMe : j = i <;> simp [Cache.releasesleep,isMe]
    · cases target
      exact here
    · by_cases isMe : j = i <;> simp [Cache.releasesleep,isMe,at_]
    · by_cases isMe : j = i
      · simp [Cache.releasesleep,isMe,at_,locked,Use.locks]
      · simp [Cache.releasesleep,isMe,Ne.symm isMe,at_,Use.locks]
    · by_cases isMe : j = i
      · simpa [Cache.releasesleep,isMe] using isMe ▸ ok
      · simpa [Cache.releasesleep,isMe] using ok
    · by_cases isMe : j = i
      · subst isMe
        simp only [Cache.releasesleep,Cache.set_buf,if_true] at there ok ⊢
        exact ⟨there,ok,trivial⟩
      · simp only [Cache.releasesleep,Cache.set_buf,isMe,if_false] at there ok ⊢
        exact ⟨there,ok,trivial⟩
  next => cases stepped

theorem unref_inv (inv : Inv initial start s) (stepped : unref s h = some s') : Inv initial start s' := by
  unfold unref at stepped
  split at stepped
  next i b at_ =>
    cases stepped
    have rest := fun j => addRef_rest s.cache i j (-1)
    have fits : Fits start s h .idle := by
      cases h with
      | inl p => exact ⟨fun _ _ target => (nomatch target),fun _ => rfl⟩
      | inr home => exact ⟨fun _ _ target => (nomatch target),rfl⟩
    refine inv.move (inv.shape.move (fun j => ?_) (fun _ _ target => nomatch target) (fun j => ?_) (fun j => ?_)
      (fun j ok => ?_) (fun j locks => by cases locks)) (inv.contents.move (by rw [at_]; rfl) fun j b' there ok => .inl ?_)
      rfl inv.trace fits
    · rw [Cache.unref_buf,(rest j).1]
    · rw [Cache.unref_buf,Cache.addRef_buf]
      by_cases isMe : j = i
      · simp [isMe,at_]
      · simp [isMe,Ne.symm isMe,at_]
    · rw [Cache.unref_buf,(rest j).2.2.1,at_]
      rfl
    · rw [Cache.unref_buf,(rest j).2.1,ok]
    · rw [Cache.unref_buf] at there ok ⊢
      rw [(rest j).1] at there
      rw [(rest j).2.1] at ok
      exact ⟨there,ok,(rest j).2.2.2⟩
  next => cases stepped

theorem modify_inv (inv : Inv initial start s) {p : P} {data : Block} (stepped : modify s p data = some s') :
    Inv initial start s' := by
  unfold modify at stepped
  split at stepped
  next i b dirty at_ =>
    split_ifs at stepped with rest
    cases stepped
    have here := inv.shape.target (.inl p) i b (by rw [at_]; rfl)
    have home := (inv.fits (.inl p)).1 i b (by rw [at_]; rfl)
    have fits : Fits start s (.inl p) (.holding i b true) :=
      ⟨fun i' b' target => by cases target; exact home,fun busy => absurd rest busy⟩
    refine inv.move ((inv.shape.setData i data).flag at_) ⟨fun j b' there ok home => ?_,fun j b' there ok log => ?_,
      inv.contents.settled⟩ rfl inv.trace fits
    · by_cases isMe : j = i
      · rw [(setData_rest _ _ _ _).1,isMe,here] at there
        refine .inl ⟨.inl p,?_⟩
        rw [update_self,isMe,Option.some.inj there]
      · rw [setData_buf,if_neg isMe] at there ok ⊢
        rcases inv.contents.home j b' there ok home with ⟨h',unlogged⟩ | stored
        · refine .inl ⟨h',?_⟩
          rw [update_of_ne (by rintro rfl; rw [at_] at unlogged; cases unlogged; exact isMe rfl)]
          exact unlogged
        · exact .inr stored
    · grind [inv.contents.log,setData_rest,setData_buf]
  next => cases stepped

theorem Contents.logged (contents : Contents start disk c use store pins) (shape : Shape c use pins)
    (at_ : use h = .holding i b d) {pins' : List Nat} (more : ∀ b' ∈ pins, b' ∈ pins') (pinned : b ∈ pins')
    (bufs : ∀ j, (c'.buf j).block = (c.buf j).block ∧ (c'.buf j).valid = (c.buf j).valid ∧ (c'.buf j).data = (c.buf j).data) :
    Contents start disk c' (update use h (.holding i b false)) (update store b (c.buf i).data) pins' := by
  have here := shape.target h i b (by rw [at_]; rfl)
  refine ⟨fun j b' there ok home => ?_,fun j b' there ok log => ?_,fun b' home outside => ?_⟩
  · rw [(bufs j).1] at there
    rw [(bufs j).2.1] at ok
    rw [(bufs j).2.2]
    by_cases isMe : j = i
    · rw [isMe,here] at there
      right
      rw [← Option.some.inj there,update_self,isMe]
    · have other : b' ≠ b := fun same => isMe (c.unique j i b (same ▸ there) here)
      rw [update_of_ne other]
      rcases contents.home j b' there ok home with ⟨h',unlogged⟩ | stored
      · refine .inl ⟨h',?_⟩
        rw [update_of_ne (by rintro rfl; rw [at_] at unlogged; cases unlogged; exact isMe rfl)]
        exact unlogged
      · exact .inr stored
  · rw [(bufs j).2.2]
    exact contents.log j b' ((bufs j).1 ▸ there) ((bufs j).2.1 ▸ ok) log
  · rw [update_of_ne (by rintro rfl; exact outside pinned)]
    exact contents.settled b' home fun old => outside (more b' old)

omit [Fintype P] in
theorem logWrite_cases {p : P} (stepped : logWrite s p = some s') :
    ∃ i b dirty, s.use (.inl p) = .holding i b dirty ∧ s.stage = .none ∧ s.lh.length < logBlocks ∧
      s'.disk = s.disk ∧ s'.stage = s.stage ∧ s'.unpins = s.unpins ∧
      s'.use = update s.use (.inl p) (.holding i b false) ∧
      s'.trace = s.trace ++ [.wrote b (s.cache.buf i).data] ∧
      ((b ∈ s.lh ∧ s'.cache = s.cache ∧ s'.lh = s.lh ∧ s'.pins = s.pins) ∨
        (b ∉ s.lh ∧ s'.cache = s.cache.addRef i 1 ∧ s'.lh = s.lh ++ [b] ∧
          s'.pins = update s.pins b (s.pins b + 1))) := by
  unfold logWrite at stepped
  split at stepped
  next i b dirty at_ =>
    split_ifs at stepped with ready
    change (if b ∈ s.lh then some _ else some _) = some s' at stepped
    refine ⟨i,b,dirty,at_,ready.1,ready.2,?_⟩
    split_ifs at stepped with logged
    · cases stepped
      exact ⟨rfl,rfl,rfl,rfl,rfl,.inl ⟨logged,rfl,rfl,rfl⟩⟩
    · cases stepped
      exact ⟨rfl,rfl,rfl,rfl,rfl,.inr ⟨logged,rfl,rfl,rfl⟩⟩
  next => cases stepped

theorem logWrite_inv (inv : Inv initial start s) {p : P} (stepped : logWrite s p = some s') : Inv initial start s' := by
  obtain ⟨i,b,dirty,at_,rest,room,disk,stage,unpins,use,trace,cases⟩ := logWrite_cases stepped
  have here := inv.shape.target (.inl p) i b (by rw [at_]; rfl)
  have ok := inv.shape.valid (.inl p) i (by rw [at_]; simp [Use.locks])
  have home := (inv.fits (.inl p)).1 i b (by rw [at_]; rfl)
  have before : pending s = s.lh := by rw [pending,rest]
  have after : pending s' = s'.lh := by rw [pending,stage,rest]
  have store : flat initial s'.trace = update (flat initial s.trace) b (s.cache.buf i).data := by
    rw [trace]
    exact flat_append _ _ _
  have traced : FlatTrace initial s'.trace := by
    rw [trace]
    exact .wrote s.trace b _ inv.trace
  have fits : ∀ h, Fits start s' h (s'.use h) := by
    intro h
    have clean := (inv.fits (.inl p)).same_target (v := .holding i b false) (by rw [at_]; rfl) rfl
    have old := inv.fits h
    rw [use,update_apply]
    split_ifs with isMe
    · rw [isMe]
      exact ⟨clean.1,fun _ => rfl⟩
    · cases h with
      | inl q => exact ⟨old.1,fun busy => absurd (stage.trans rest) busy⟩
      | inr home =>
        refine ⟨fun i b target => ?_,old.2⟩
        have wanted := old.1 i b target
        rw [wants,rest] at wanted
        cases wanted
  have inside : s'.stage.Bounds s'.lh.length := by
    rw [stage,rest]
    trivial
  have copies : ∀ t b, t < copied s' → s'.lh[t]? = some b → s'.disk (start + t + 1) = flat initial s'.trace b := by
    rw [copied,stage,rest]
    exact fun t _ below => absurd below (Nat.not_lt_zero t)
  rcases cases with ⟨logged,cache,lh,pins⟩ | ⟨fresh,cache,lh,pins⟩
  · have same : pending s' = pending s := by rw [after,before,lh]
    refine ⟨?_,?_,traced,fits,lh ▸ inv.home,lh ▸ inv.distinct,lh ▸ inv.short,inside,copies,?_⟩
    · rw [cache,use,same]
      exact inv.shape.flag at_
    · rw [disk,cache,use,store,same]
      exact inv.contents.logged inv.shape at_ (fun _ old => old) (before ▸ logged) fun _ => ⟨rfl,rfl,rfl⟩
    · rw [pins,unpins,same]
      exact inv.pins
  · have grown : pending s' = pending s ++ [b] := by rw [after,before,lh]
    have rest_ := fun j => addRef_rest s.cache i j 1
    refine ⟨?_,?_,traced,fits,fun b' inside => ?_,?_,?_,inside,copies,fun b' => ?_⟩
    · rw [cache,use,grown]
      exact (inv.shape.flag at_).pin here ok (before ▸ fresh)
    · rw [disk,cache,use,store,grown]
      exact inv.contents.logged inv.shape at_ (fun _ old => mem_append_left _ old) (by simp)
        fun j => ⟨(rest_ j).1,(rest_ j).2.1,(rest_ j).2.2.2⟩
    · grind [inv.home]
    · rw [lh]
      exact List.Nodup.append inv.distinct (nodup_singleton b) (by simpa using fresh)
    · rw [lh,length_append]
      exact room
    · have old := inv.pins b'
      rw [before] at old
      rw [pins,unpins,after,lh,update_apply]
      by_cases isMe : b' = b
      · subst isMe
        rw [if_neg fresh] at old
        simp [old]
      · simp only [isMe,if_false,mem_append,mem_singleton,or_false]
        exact old

omit [DecidableEq P] in
theorem Inv.bounds (inv : Inv initial start s) (at_ : s.stage = stage) : stage.Bounds s.lh.length :=
  at_ ▸ inv.inside

omit [DecidableEq P] in
theorem Inv.turn (inv : Inv initial start s) (same : pending { s with stage := stage } = pending s)
    (fits : ∀ h, Fits start { s with stage := stage } h (s.use h))
    (inside : stage.Bounds s.lh.length) (fewer : copied { s with stage := stage } ≤ copied s) :
    Inv initial start { s with stage := stage } := by
  refine ⟨?_,?_,inv.trace,fits,inv.home,inv.distinct,inv.short,inside,?_,?_⟩
  · rw [same]
    exact inv.shape
  · rw [same]
    exact inv.contents
  · exact fun t b below => inv.copies t b (Nat.lt_of_lt_of_le below fewer)
  · rw [same]
    exact inv.pins

omit [DecidableEq P] in
theorem commit_inv (inv : Inv initial start s) (stepped : commit s = some s') : Inv initial start s' := by
  unfold commit at stepped
  split_ifs at stepped with ready
  obtain ⟨rest,some,clean⟩ := ready
  cases stepped
  refine inv.turn (by simp [pending,rest]) (fun h => ?_) some (Nat.zero_le _)
  cases h with
  | inl p => exact ⟨(inv.fits (.inl p)).1,fun _ => clean p⟩
  | inr home =>
    refine ⟨fun i b target => ?_,(inv.fits (.inr home)).2⟩
    have wanted := (inv.fits (.inr home)).1 i b target
    rw [wants,rest] at wanted
    cases wanted

omit [DecidableEq P] [Fintype P] in
theorem Fits.work (fits : Fits start s h u) (busy : s.stage ≠ .none)
    (same : ∀ home, wants start s' home = wants start s home) : Fits start s' h u := by
  cases h with
  | inl p => exact ⟨fits.1,fun _ => fits.2 busy⟩
  | inr home => exact ⟨fun i b target => (same home).trans (fits.1 i b target),fits.2⟩

omit [DecidableEq P] [Fintype P] in
theorem Fits.next (fits : Fits start s h u) (busy : s.stage ≠ .none) (idle : h.isRight = true → u = .idle) :
    Fits start s' h u := by
  cases h with
  | inl p => exact ⟨fits.1,fun _ => fits.2 busy⟩
  | inr home =>
    rw [idle rfl]
    exact ⟨fun _ _ target => (nomatch target),rfl⟩

omit [DecidableEq P] in
theorem next_inv (inv : Inv initial start s) (stepped : next s = some s') : Inv initial start s' := by
  unfold next at stepped
  split_ifs at stepped with idle
  have alone : ∀ h : Party P, h.isRight = true → s.use h = .idle := by
    rintro (p | home) right
    · cases right
    · cases home
      · exact idle.1
      · exact idle.2
  have fits : ∀ s', s.stage ≠ .none → ∀ h, Fits start s' h (s.use h) := fun _ busy h => (inv.fits h).next busy (alone h)
  cases at_ : s.stage with
  | logged tail =>
    simp only [at_,Option.some.injEq] at stepped
    have below : tail < s.lh.length := inv.bounds at_
    rw [← stepped]
    split_ifs with more
    · exact inv.turn (by simp [pending,at_]) (fits _ (by simp [at_])) more (by simp [copied,at_])
    · exact inv.turn (by simp [pending,at_]) (fits _ (by simp [at_])) (Nat.zero_lt_of_lt below) (by simp [copied,at_]; omega)
  | headed =>
    simp only [at_] at stepped
    cases stepped
    have some := inv.bounds at_
    exact inv.turn (by simp [pending,at_]) (fits _ (by simp [at_])) some (by simp [copied,at_])
  | installed tail =>
    simp only [at_] at stepped
    split_ifs at stepped with more
    · cases stepped
      exact inv.turn (by simp [pending,at_]) (fits _ (by simp [at_])) more (by simp [copied,at_])
    · cases stepped
      have none : pending s = [] := by
        rw [pending,at_]
        exact drop_eq_nil_of_le (by omega)
      refine ⟨none ▸ inv.shape,none ▸ inv.contents,inv.trace,fits _ (by simp [at_]),?_,nodup_nil,Nat.zero_le _,rfl,?_,
        none ▸ inv.pins⟩
      · exact fun b inside => (nomatch inside)
      · exact fun t _ below => absurd below (Nat.not_lt_zero t)
  | cleared =>
    simp only [at_] at stepped
    cases stepped
    exact inv.turn (by simp [pending,at_]) (fits _ (by simp [at_])) trivial (Nat.zero_le _)
  | _ => simp only [at_] at stepped; cases stepped

omit [DecidableEq P] [Fintype P] in
theorem Contents.writeLog (contents : Contents start disk c use store pins) (here : (c.buf i).block = some b)
    (log : logArea start b) (data : Block) :
    Contents start (update disk b data) (c.setData i data) use store pins := by
  refine ⟨fun j b' there ok home => ?_,fun j b' there ok log => ?_,fun b' home outside => ?_⟩
  · grind [contents.home,setData_rest,setData_buf]
  · by_cases isMe : j = i
    · rw [(setData_rest _ _ _ _).1,isMe,here] at there
      rw [setData_buf,if_pos isMe,← Option.some.inj there,update_self]
    · rw [setData_buf,if_neg isMe] at there ok ⊢
      rw [update_of_ne (by rintro rfl; exact isMe (c.unique j i b' there here))]
      exact contents.log j b' there ok log
  · rw [update_of_ne (by rintro rfl; exact home log)]
    exact contents.settled b' home outside

omit [DecidableEq P] [Fintype P] in
theorem Contents.install (contents : Contents start disk c use store (b :: pins)) (here : (c.buf i).block = some b)
    (home : ¬logArea start b) :
    Contents start (update disk b (store b)) (c.setData i (store b)) use store pins := by
  refine ⟨fun j b' there ok outside => ?_,fun j b' there ok log => ?_,fun b' outside unpinned => ?_⟩
  · by_cases isMe : j = i
    · rw [(setData_rest _ _ _ _).1,isMe,here] at there
      right
      rw [setData_buf,if_pos isMe,Option.some.inj there]
    · rw [setData_buf,if_neg isMe] at there ok ⊢
      exact contents.home j b' there ok outside
  · grind [contents.log,setData_rest,setData_buf,update_apply]
  · rw [update_apply]
    split_ifs with isMe
    · rw [isMe]
    · exact contents.settled b' outside (by simp [isMe,unpinned])

omit [DecidableEq P] in
theorem Inv.clean (inv : Inv initial start s) (at_ : s.use h = .holding i b false) (home : ¬logArea start b) :
    (s.cache.buf i).data = flat initial s.trace b := by
  have held : (s.use h).locks i = true := by rw [at_]; simp [Use.locks]
  rcases inv.contents.home i b (inv.shape.target h i b (by rw [at_]; rfl)) (inv.shape.valid h i held) home with ⟨h',dirty⟩ | stored
  · have isMe : h' = h := inv.shape.one (i := i) (by rw [dirty]; simp [Use.locks]) held
    rw [isMe,at_] at dirty
    cases dirty
  · exact stored

omit [DecidableEq P] [Fintype P] in
theorem Fits.committer {home : Bool} (fits : Fits start s (.inr home) (.holding i b d)) :
    wants start s home = some b ∧ d = false := ⟨fits.1 i b rfl,fits.2⟩

theorem logArea_slot {start n : Nat} (below : tail < n) (short : n ≤ logBlocks) : logArea start (start + tail + 1) :=
  ⟨by omega,by omega⟩

omit [DecidableEq P] in
theorem Inv.writeLog (inv : Inv initial start s) (at_ : s.use (.inr false) = .holding i b d)
    (log : logArea start b) (data : Block) (same : pending { s with stage := stage } = pending s)
    (wanted : ∀ home, wants start { s with stage := stage } home = wants start s home) (busy : s.stage ≠ .none)
    (inside : stage.Bounds s.lh.length)
    (copies : ∀ t b', t < copied { s with stage := stage } → s.lh[t]? = some b' →
      update s.disk b data (start + t + 1) = flat initial s.trace b') :
    Inv initial start { s with
      disk := update s.disk b data, cache := s.cache.setData i data, stage := stage } := by
  have here := inv.shape.target _ i b (by rw [at_]; rfl)
  refine ⟨?_,?_,inv.trace,fun h => ?_,inv.home,inv.distinct,inv.short,inside,copies,?_⟩
  · change Shape (s.cache.setData i data) s.use (pending { s with stage := stage })
    rw [same]
    exact inv.shape.setData i data
  · change Contents start _ (s.cache.setData i data) s.use _ (pending { s with stage := stage })
    rw [same]
    exact inv.contents.writeLog here log data
  · exact (inv.fits h).work busy wanted
  · change ∀ b, s.pins b = s.unpins b + if b ∈ pending { s with stage := stage } then 1 else 0
    rw [same]
    exact inv.pins

omit [DecidableEq P] in
theorem Inv.writeHead (inv : Inv initial start s) (at_ : s.use (.inr false) = .holding i b d)
    (head : b = start) (data : Block) (same : pending { s with stage := stage } = pending s)
    (wanted : ∀ home, wants start { s with stage := stage } home = wants start s home) (busy : s.stage ≠ .none)
    (inside : stage.Bounds s.lh.length) (fewer : copied { s with stage := stage } ≤ copied s) :
    Inv initial start { s with
      disk := update s.disk b data, cache := s.cache.setData i data, stage := stage } := by
  refine inv.writeLog at_ ⟨Nat.le_of_eq head.symm,by omega⟩ data same wanted busy inside fun t b' below at' => ?_
  rw [update_of_ne (by omega)]
  exact inv.copies t b' (Nat.lt_of_lt_of_le below fewer) at'

omit [DecidableEq P] in
theorem Inv.install (inv : Inv initial start s) {j : BufId} {b' : Nat} {d' : Bool}
    (at_ : s.stage = .install tail) (held : s.use (.inr false) = .holding i b d) (held' : s.use (.inr true) = .holding j b' d') :
    Inv initial start { s with
      disk := update s.disk b' (s.cache.buf i).data
      cache := (s.cache.setData j (s.cache.buf i).data).addRef j (-1)
      stage := .installed tail
      unpins := update s.unpins b' (s.unpins b' + 1) } := by
  have below : tail < s.lh.length := inv.bounds at_
  obtain ⟨slot,_⟩ := (held ▸ inv.fits (.inr false)).committer
  obtain ⟨to_,_⟩ := (held' ▸ inv.fits (.inr true)).committer
  simp only [wants,at_,if_true,Bool.false_eq_true,if_false,Option.some.injEq] at slot to_
  subst slot
  have home := inv.home b' (mem_of_getElem? to_)
  have here := inv.shape.target _ i _ (by rw [held]; rfl)
  have there := inv.shape.target _ j b' (by rw [held']; rfl)
  have all : pending s = b' :: s.lh.drop (tail + 1) := by
    rw [pending,at_]
    exact drop_eq_getElem?_toList_append .. |>.trans (by rw [to_]; rfl)
  have once : b' ∉ s.lh.drop (tail + 1) := by
    have distinct := (drop_sublist tail s.lh).nodup inv.distinct
    have split : s.lh.drop tail = b' :: s.lh.drop (tail + 1) := by rw [← all,pending,at_]
    rw [split] at distinct
    exact (nodup_cons.mp distinct).1
  have data : (s.cache.buf i).data = flat initial s.trace b' := by
    rw [inv.contents.log i _ here (inv.shape.valid _ i (by rw [held]; simp [Use.locks])) (logArea_slot below inv.short)]
    exact inv.copies tail b' (by rw [copied,at_]; exact below) to_
  rw [data]
  have rest := fun k => addRef_rest (s.cache.setData j (flat initial s.trace b')) j k (-1)
  have contents := (all ▸ inv.contents).install there home
  refine ⟨?_,?_,inv.trace,fun h => ?_,inv.home,inv.distinct,inv.short,below,fun t b'' copied_ at' => ?_,fun b'' => ?_⟩
  · exact ((all ▸ inv.shape).setData j _).unpin ((setData_rest _ _ _ _).1.trans there) once
  · refine ⟨fun k b'' at' ok => ?_,fun k b'' at' ok => ?_,contents.settled⟩
    · rw [(rest k).1] at at'
      rw [(rest k).2.1] at ok
      rw [(rest k).2.2.2]
      exact contents.home k b'' at' ok
    · rw [(rest k).1] at at'
      rw [(rest k).2.1] at ok
      rw [(rest k).2.2.2]
      exact contents.log k b'' at' ok
  · exact (inv.fits h).work (by simp [at_]) (by simp [wants,at_])
  · have short : t < s.lh.length := copied_
    change update s.disk b' _ (start + t + 1) = flat initial s.trace b''
    rw [update_of_ne (by rintro rfl; exact home (logArea_slot short inv.short))]
    exact inv.copies t b'' (by rw [copied,at_]; exact short) at'
  · have before := inv.pins b''
    rw [all] at before
    change s.pins b'' = update s.unpins b' (s.unpins b' + 1) b'' + if b'' ∈ s.lh.drop (tail + 1) then 1 else 0
    rw [update_apply]
    by_cases isMe : b'' = b'
    · subst isMe
      rw [if_pos (.head _)] at before
      rw [if_pos rfl,if_neg once,before]
    · simp only [mem_cons,isMe,false_or] at before
      rw [if_neg isMe,before]

omit [DecidableEq P] in
theorem work_inv (inv : Inv initial start s) (stepped : work s = some s') : Inv initial start s' := by
  unfold work at stepped
  split at stepped
  next tail i b d j b' d' at_ held held' =>
    -- write_log
    cases stepped
    have below : tail < s.lh.length := inv.bounds at_
    obtain ⟨slot,_⟩ := (held ▸ inv.fits (.inr false)).committer
    obtain ⟨from_,rfl⟩ := (held' ▸ inv.fits (.inr true)).committer
    simp only [wants,at_,if_true,Bool.false_eq_true,if_false,Option.some.injEq] at slot from_
    subst slot
    have home := inv.home b' (mem_of_getElem? from_)
    have stored := inv.clean held' home
    refine inv.writeLog held (logArea_slot below inv.short) _ (by simp [pending,at_]) (by simp [wants,at_]) (by simp [at_])
      below fun t b'' copied_ at' => ?_
    rw [update_apply]
    split_ifs with isMe
    · have same : t = tail := by omega
      rw [same,from_] at at'
      rw [stored,Option.some.inj at']
    · have before : t < copied s := by
        have below' : t < tail + 1 := copied_
        rw [copied,at_]
        change t < tail
        omega
      exact inv.copies t b'' before at'
  next tail i b d j b' d' at_ held held' =>
    cases stepped
    exact inv.install at_ held held'
  next i b d at_ held =>
    cases stepped
    obtain ⟨head,_⟩ := (held ▸ inv.fits (.inr false)).committer
    simp only [wants,at_,Bool.false_eq_true,if_false,Option.some.injEq] at head
    have inside := inv.bounds at_
    exact inv.writeHead held head.symm _ (by simp [pending,at_]) (by simp [wants,at_]) (by simp [at_]) inside (by simp [copied,at_])
  next i b d at_ held =>
    cases stepped
    obtain ⟨head,_⟩ := (held ▸ inv.fits (.inr false)).committer
    simp only [wants,at_,Bool.false_eq_true,if_false,Option.some.injEq] at head
    have inside := inv.bounds at_
    exact inv.writeHead held head.symm _ (by simp [pending,at_]) (by simp [wants,at_]) (by simp [at_]) inside (by simp [copied,at_])
  next => cases stepped

/-! Whole runs. -/

omit [DecidableEq P] in
theorem boot_inv (initial : Disk) (start : Nat) : Inv initial start (boot initial : State P) := by
  have none : ∀ test : Use → Bool, test .idle = false → count test (fun _ : Party P => Use.idle) = 0 :=
    fun test idle => count_eq_zero.mpr fun _ => idle
  refine ⟨⟨fun _ _ _ target => (by cases target),fun i => ?_,fun i => ?_,fun _ _ locks => (by cases locks),?_⟩,
    ⟨fun _ _ here => (by cases here),fun _ _ here => (by cases here),fun _ _ _ => rfl⟩,.start,fun h => ?_,?_,nodup_nil,
    Nat.zero_le _,trivial,fun t _ below => absurd below (Nat.not_lt_zero t),fun b => rfl⟩
  · change 0 = (count (Use.on i) (fun _ : Party P => Use.idle) : Int) + if Pinned binit [] i then 1 else 0
    rw [none _ rfl,if_neg (by simp [Pinned])]
    rfl
  · exact none _ rfl
  · exact fun b pinned => (by cases pinned)
  · cases h with
    | inl p => exact ⟨fun _ _ target => (by cases target),fun _ => rfl⟩
    | inr home => exact ⟨fun _ _ target => (by cases target),rfl⟩
  · exact fun b inside => (by cases inside)

theorem step_inv (inv : Inv initial start s) {label : Label P} (stepped : step start s label = some s') :
    Inv initial start s' := by
  cases label with
  | get h b victim => exact get_inv inv stepped
  | acquire h => exact acquire_inv inv stepped
  | modify p data => exact modify_inv inv stepped
  | logWrite p => exact logWrite_inv inv stepped
  | unlock h => exact unlock_inv inv stepped
  | unref h => exact unref_inv inv stepped
  | commit => exact commit_inv inv stepped
  | work => exact work_inv inv stepped
  | next => exact next_inv inv stepped

theorem reachable_inv (reached : (system P initial start).Reachable s) : Inv initial start s := by
  refine reached.invariant (fun s first => ?_) (fun s label s' _ inv stepped => ?_)
  · rw [first]
    exact boot_inv initial start
  · exact step_inv inv stepped

theorem step_frame {label : Label P} (stepped : step start s label = some s') :
    (label ≠ .work → s'.disk = s.disk ∧ s'.unpins = s.unpins) ∧ ((∀ p, label ≠ .logWrite p) → s'.pins = s.pins) := by
  cases label with
  | get h b victim =>
    simp only [step,get] at stepped
    split_ifs at stepped
    split at stepped
    · cases stepped
      exact ⟨fun _ => ⟨rfl,rfl⟩,fun _ => rfl⟩
    · cases stepped
  | acquire h =>
    simp only [step,acquire] at stepped
    repeat' split at stepped
    all_goals cases stepped
    exact ⟨fun _ => ⟨rfl,rfl⟩,fun _ => rfl⟩
  | modify p data =>
    simp only [step,modify] at stepped
    repeat' split at stepped
    all_goals cases stepped
    exact ⟨fun _ => ⟨rfl,rfl⟩,fun _ => rfl⟩
  | logWrite p =>
    obtain ⟨i,b,dirty,_,_,_,disk,_,unpins,_⟩ := logWrite_cases stepped
    exact ⟨fun _ => ⟨disk,unpins⟩,fun other => absurd rfl (other p)⟩
  | unlock h =>
    simp only [step,unlock] at stepped
    repeat' split at stepped
    all_goals cases stepped
    exact ⟨fun _ => ⟨rfl,rfl⟩,fun _ => rfl⟩
  | unref h =>
    simp only [step,unref] at stepped
    repeat' split at stepped
    all_goals cases stepped
    exact ⟨fun _ => ⟨rfl,rfl⟩,fun _ => rfl⟩
  | commit => grind [step,commit]
  | work => grind [step,work]
  | next => grind [step,next]

omit [DecidableEq P] in
theorem work_cases (inv : Inv initial start s) (stepped : work s = some s') :
    (∃ b data, logArea start b ∧ s'.disk = update s.disk b data ∧ s'.unpins = s.unpins) ∨
      ∃ tail b data, s.stage = .install tail ∧ s'.stage = .installed tail ∧ s.lh[tail]? = some b ∧
        s'.disk = update s.disk b data ∧ s'.unpins = update s.unpins b (s.unpins b + 1) := by
  unfold work at stepped
  split at stepped
  next tail i b d j b' d' at_ held held' =>
    cases stepped
    obtain ⟨slot,_⟩ := (held ▸ inv.fits (.inr false)).committer
    simp only [wants,at_,Bool.false_eq_true,if_false,Option.some.injEq] at slot
    exact .inl ⟨b,_,slot ▸ logArea_slot (inv.bounds at_) inv.short,rfl,rfl⟩
  next tail i b d j b' d' at_ held held' =>
    cases stepped
    obtain ⟨to_,_⟩ := (held' ▸ inv.fits (.inr true)).committer
    simp only [wants,at_,if_true] at to_
    exact .inr ⟨tail,b',_,at_,rfl,to_,rfl,rfl⟩
  next i b d at_ held =>
    cases stepped
    obtain ⟨head,_⟩ := (held ▸ inv.fits (.inr false)).committer
    simp only [wants,at_,Bool.false_eq_true,if_false,Option.some.injEq] at head
    exact .inl ⟨b,_,⟨Nat.le_of_eq head,by omega⟩,rfl,rfl⟩
  next i b d at_ held =>
    cases stepped
    obtain ⟨head,_⟩ := (held ▸ inv.fits (.inr false)).committer
    simp only [wants,at_,Bool.false_eq_true,if_false,Option.some.injEq] at head
    exact .inl ⟨b,_,⟨Nat.le_of_eq head,by omega⟩,rfl,rfl⟩
  next => cases stepped

theorem home_changes (inv : Inv initial start s) {label : Label P} (stepped : step start s label = some s')
    (home : ¬logArea start b) (changed : s'.disk b ≠ s.disk b) :
    label = .work ∧ ∃ tail, s.stage = .install tail ∧ s.lh[tail]? = some b := by
  by_cases working : label = .work
  · subst working
    refine ⟨rfl,?_⟩
    rcases work_cases inv stepped with ⟨b',data,log,disk,_⟩ | ⟨tail,b',data,at_,_,to_,disk,_⟩
    · rw [disk,update_of_ne (by rintro rfl; exact home log)] at changed
      exact absurd rfl changed
    · have isMe : b = b' := by
        by_contra other
        rw [disk,update_of_ne other] at changed
        exact changed rfl
      exact ⟨tail,at_,isMe ▸ to_⟩
  · rw [((step_frame stepped).1 working).1] at changed
    exact absurd rfl changed

theorem pin_changes {label : Label P} (stepped : step start s label = some s') (changed : s'.pins b ≠ s.pins b) :
    s'.pins b = s.pins b + 1 ∧ b ∉ s.lh ∧ s'.lh = s.lh ++ [b] := by
  by_cases logging : ∃ p, label = .logWrite p
  · obtain ⟨p,rfl⟩ := logging
    obtain ⟨i,b',_,_,_,_,_,_,_,_,_,cases⟩ := logWrite_cases stepped
    rcases cases with ⟨_,_,_,pins⟩ | ⟨fresh,_,lh,pins⟩
    · rw [pins] at changed
      exact absurd rfl changed
    · have isMe : b = b' := by
        by_contra other
        rw [pins,update_of_ne other] at changed
        exact changed rfl
      subst isMe
      exact ⟨by rw [pins,update_self],fresh,lh⟩
  · rw [(step_frame stepped).2 fun p isLog => logging ⟨p,isLog⟩] at changed
    exact absurd rfl changed

theorem unpin_changes (inv : Inv initial start s) {label : Label P} (stepped : step start s label = some s')
    (changed : s'.unpins b ≠ s.unpins b) : s'.unpins b = s.unpins b + 1 ∧
      ∃ tail, s.stage = .install tail ∧ s'.stage = .installed tail ∧ s.lh[tail]? = some b := by
  by_cases working : label = .work
  · subst working
    rcases work_cases inv stepped with ⟨b',data,log,_,unpins⟩ | ⟨tail,b',data,at_,after,to_,_,unpins⟩
    · rw [unpins] at changed
      exact absurd rfl changed
    · have isMe : b = b' := by
        by_contra other
        rw [unpins,update_of_ne other] at changed
        exact changed rfl
      subst isMe
      exact ⟨by rw [unpins,update_self],tail,at_,after,to_⟩
  · rw [((step_frame stepped).1 working).2] at changed
    exact absurd rfl changed

omit [DecidableEq P] in
theorem commit_ends (inv : Inv initial start s) (at_ : s.stage = .cleared) (stepped : next s = some s') (i : BufId) :
    (s'.cache.buf i).refcnt = count (Use.on i) (s'.use ∘ Sum.inl) := by
  have empty : s.lh = [] := length_eq_zero_iff.mp (inv.bounds at_)
  have unpinned : ¬Pinned s.cache (pending s) i := by
    rw [pending,at_,empty]
    simp [Pinned]
  have refs := inv.shape.refs i
  rw [if_neg unpinned,count_sum] at refs
  unfold next at stepped
  split_ifs at stepped with idle
  rw [at_] at stepped
  cases stepped
  have alone : count (Use.on i) (s.use ∘ Sum.inr) = 0 := by
    refine count_eq_zero.mpr fun home => ?_
    cases home with
    | false => simp [idle.1]
    | true => simp [idle.2]
  rw [alone] at refs
  simpa using refs

/-- The cache and the log are a flat store of blocks, in every interleaving of
clients and commits and for every choice of the buffers to recycle. Reads return
what was logged last, home blocks are written by install_trans only, every block of
the log is pinned when it comes in and unpinned when it is installed, and after a
commit only the clients' own references are left. -/
theorem cache_refines_flat_store (reached : (system P initial start).Reachable s) :
    FlatTrace initial s.trace ∧
    (∀ p i b, s.use (.inl p) = .holding i b false → (s.cache.buf i).data = flat initial s.trace b) ∧
    s.lh.Nodup ∧ (∀ b, s.pins b = s.unpins b + if b ∈ pending s then 1 else 0) ∧
    ∀ label s', step start s label = some s' →
      (∀ b, ¬logArea start b → s'.disk b ≠ s.disk b → label = .work ∧ ∃ tail, s.stage = .install tail ∧ s.lh[tail]? = some b) ∧
      (∀ b, s'.pins b ≠ s.pins b → s'.pins b = s.pins b + 1 ∧ b ∉ s.lh ∧ s'.lh = s.lh ++ [b]) ∧
      (∀ b, s'.unpins b ≠ s.unpins b → s'.unpins b = s.unpins b + 1 ∧
        ∃ tail, s.stage = .install tail ∧ s'.stage = .installed tail ∧ s.lh[tail]? = some b) ∧
      (label = .next → s.stage = .cleared → ∀ i, (s'.cache.buf i).refcnt = count (Use.on i) (s'.use ∘ Sum.inl)) := by
  have inv := reachable_inv reached
  refine ⟨inv.trace,fun p i b at_ => ?_,inv.distinct,inv.pins,fun label s' stepped => ⟨?_,?_,?_,?_⟩⟩
  · exact inv.clean at_ ((inv.fits (.inl p)).1 i b (by rw [at_]; rfl))
  · exact fun b home changed => home_changes inv stepped home changed
  · exact fun b changed => pin_changes stepped changed
  · exact fun b changed => unpin_changes inv stepped changed
  · rintro rfl at_ i
    exact commit_ends inv at_ stepped i

def writeAndRead : List (Label (Fin 1)) :=
  let use (h : Party (Fin 1)) (b : Nat) (victim : Fin 3) : List (Label (Fin 1)) :=
    [.get h b (victim.castLE (by decide)),.acquire h]
  let drop (h : Party (Fin 1)) : List (Label (Fin 1)) := [.unlock h,.unref h]
  let copy := use (.inr false) 3 1 ++ use (.inr true) 100 0 ++ [.work] ++ drop (.inr true) ++ drop (.inr false) ++ [.next]
  let head := use (.inr false) 2 2 ++ [.work] ++ drop (.inr false) ++ [.next]
  use (.inl 0) 100 0 ++ [.modify 0 fun _ => 7,.logWrite 0] ++ drop (.inl 0) ++ [.commit] ++ copy ++ head ++ copy ++ head ++
    use (.inl 0) 100 0

theorem cache_refines_flat_store_commit :
    ∃ s : State (Fin 1), (system (Fin 1) (fun _ _ => 0) 2).Reachable s ∧ s.trace.length = 3 ∧ s.lh = [] ∧
      s.disk 100 0 = 7 ∧ FlatTrace (fun _ _ => 0) s.trace := by
  have ran : (System.run (step 2) (boot fun _ _ => 0) writeAndRead).any
      (fun s => s.trace.length = 3 ∧ s.lh = [] ∧ s.disk 100 0 = 7) = true := by decide +kernel
  obtain ⟨s,reached,ends⟩ := (Option.any_eq_true _ _).mp ran
  have run : (system (Fin 1) (fun _ _ => 0) 2).Reachable s := (System.Reachable.start _ rfl).run reached
  simp only [decide_eq_true_eq] at ends
  exact ⟨s,run,ends.1,ends.2.1,ends.2.2,(cache_refines_flat_store run).1⟩

end Xv6.Bcache
