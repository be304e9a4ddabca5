import Xv6.Virtio.Shape

/-! Every step of the driver and of the device keeps the invariant. -/
namespace Xv6.Virtio
open Lib Lib.Ring
open Function (update update_of_ne update_self)
variable {P B : Type} {blockno : B → BitVec 32}
variable {s s' : State P B} {pend out : List (Fin num)} {p : P} {pc : Pc B} {job : Job B}

theorem Inv.quiet (inv : Inv blockno s pend out) (locked : Locked s') (same : s' = { s with
      pc := s'.pc, holder := s'.holder, lock := s'.lock, handler := s'.handler })
    (stages : ∀ q, (s'.pc q).stage = (s.pc q).stage)
    (body : s'.handler = some .body → s.disk.driverIdx ≠ s.disk.usedIdx) : Inv blockno s' pend out := by
  refine inv.shift ?_ ?_ ?_ stages ?_ (by rw [same]; exact body) ?_ locked <;> rw [same]
  · exact .refl
  · exact ⟨rfl,rfl,rfl,rfl⟩

section
variable [DecidableEq P]

@[grind =] theorem goto_pc (s : State P B) (q : P) : (s.goto p pc).pc q = if q = p then pc else s.pc q :=
  Function.update_apply ..

theorem stage_goto (s : State P B) (stage : pc.stage = (s.pc p).stage) (q : P) :
    ((s.goto p pc).pc q).stage = (s.pc q).stage := by
  grind

namespace Locked

theorem goto (locked : Locked s) (locks : pc.locks = (s.pc p).locks) (buf : ∀ b, pc.buf = some b → s.holder b = some p) :
    Locked (s.goto p pc) := by
  obtain ⟨process,handler,owned⟩ := locked
  constructor <;> grind [State.goto]

theorem take (locked : Locked s) (locks : pc.locks = true) (buf : ∀ b, pc.buf = some b → s.holder b = some p)
    (takes : s.take p pc = some s') : s.lock = none ∧ s' = { s with lock := some (.process p) }.goto p pc ∧ Locked s' := by
  have unlocked := locked.unlocked
  obtain ⟨process,handler,owned⟩ := locked
  unfold State.take at takes
  split_ifs at takes with open_
  cases takes
  refine ⟨open_,rfl,?_,?_,?_⟩ <;> grind [State.goto]

theorem drop (locked : Locked s) (mine : (s.pc p).locks = true) (locks : pc.locks = false)
    (buf : ∀ b, pc.buf = some b → s.holder b = some p) : Locked (s.drop p pc) := by
  have held := (locked.process p).mp mine
  obtain ⟨process,handler,owned⟩ := locked
  constructor <;> grind [State.drop,State.goto]

end Locked

theorem take_inv (inv : Inv blockno s pend out) (locks : pc.locks = true) (stage : pc.stage = (s.pc p).stage)
    (buf : pc.buf = (s.pc p).buf) (takes : s.take p pc = some s') : Inv blockno s' pend out := by
  obtain ⟨-,rfl,locked⟩ := inv.locked.take locks (fun b mine => inv.locked.owned p b (buf ▸ mine)) takes
  exact inv.quiet locked rfl (stage_goto _ stage) inv.rings.body

theorem drop_inv (inv : Inv blockno s pend out) (mine : (s.pc p).locks = true) (locks : pc.locks = false)
    (stage : pc.stage = (s.pc p).stage) (buf : pc.buf = (s.pc p).buf) : Inv blockno (s.drop p pc) pend out := by
  refine inv.quiet (inv.locked.drop mine locks fun b owns => inv.locked.owned p b (buf ▸ owns)) rfl ?_ inv.rings.body
  exact stage_goto { s with lock := none } stage

end

theorem holder_inv (inv : Inv blockno s pend out) {holder : B → Option P}
    (owned : ∀ p b, (s.pc p).buf = some b → holder b = some p) : Inv blockno { s with holder } pend out :=
  inv.quiet ⟨inv.locked.process,inv.locked.handler,owned⟩ rfl (fun _ => rfl) inv.rings.body

theorem interrupt_inv (inv : Inv blockno s pend out) (open_ : s.lock = none) :
    Inv blockno { s with lock := some .handler, handler := some .test } pend out := by
  refine inv.quiet ⟨fun q => ?_,by simp,inv.locked.owned⟩ rfl (fun _ => rfl) (by simp)
  simp [inv.locked.unlocked open_ q]

theorem consume_inv (inv : Inv blockno s pend out) (moves : consume s = some s') :
    ∃ pend', Inv blockno s' pend' out := by
  by_cases empty : s.seen = s.disk.availIdx
  · simp [consume,empty] at moves
  have avail := inv.rings.avail
  rw [window_pop _ empty] at avail
  cases pend with
  | nil => cases avail
  | cons h pend =>
    obtain ⟨first,rest⟩ := List.cons.inj avail
    have after : s' = { s with seen := s.seen + 1, busy := s.busy ++ [h] } := by
      simp only [consume,empty,first,ofNat16_toNat,Fin.is_lt,if_false,dif_pos,Fin.eta] at moves
      exact (Option.some.inj moves).symm
    subst after
    refine ⟨pend,?_,⟨inv.locked.process,inv.locked.handler,inv.locked.owned⟩,?_,⟨rest,inv.rings.used,inv.rings.stored,inv.rings.status,inv.rings.body,
      inv.rings.counts,inv.rings.passed,inv.rings.coming⟩,inv.own,inv.calm⟩
    · exact inv.chained.keep (fun _ => rfl) rfl (fun _ _ => rfl) rfl (fun _ => rfl) le_rfl
    · refine inv.queued.keep (fun _ => rfl) rfl ?_ fun _ was => was
      rw [← List.append_assoc,List.cons_append]
      refine List.Perm.append_right out ?_
      exact List.perm_append_singleton h (pend ++ s.busy)

theorem complete_inv (inv : Inv blockno s pend out) {h : Fin num} (moves : complete s h = some s') :
    ∃ out', Inv blockno s' pend out' := by
  unfold complete at moves
  split_ifs at moves with busy
  obtain ⟨p,job,wait,rfl,formatted⟩ := inv.waiting (h := h) (by simp [busy])
  have mine := Pc.job_of_stage wait
  rw [formatted.request] at moves
  cases moves
  have perm : (pend ++ s.busy.erase job.idx.head ++ (out ++ [job.idx.head])).Perm (pend ++ s.busy ++ out) := by grind
  have nodup : (job.idx.head :: out).Nodup := by
    have all := perm.nodup_iff.mpr inv.queued.nodup
    exact (List.perm_append_singleton _ _).nodup_iff.mp (List.nodup_append.mp all).2.1
  have room : held s.disk.driverIdx s.disk.usedIdx < num := by
    rw [inv.rings.held_used]
    exact Virtio.room nodup
  refine ⟨out ++ [job.idx.head],?_,⟨inv.locked.process,inv.locked.handler,inv.locked.owned⟩,?_,
    ⟨inv.rings.avail,?_,inv.rings.stored,?_,?_,?_,?_,?_⟩,?_,inv.calm⟩
  · refine inv.chained.keep (fun _ => rfl) rfl (fun _ _ => rfl) rfl (fun i => ?_) (by simp)
    by_cases same : i = job.idx.head
    · simp [same]
    · simp [same]
  · refine inv.queued.keep (fun _ => rfl) rfl perm fun job was => ?_
    exact was.mono rfl (List.append_nil _).symm
  · refine (window_push (by decide) (by decide) _ _ _ _ room).trans ?_
    rw [inv.rings.used,List.map_append,List.map_singleton]
  · intro h member
    by_cases same : h = job.idx.head
    · simp [same]
    · have earlier : h ∈ out := by simpa [same] using member
      simpa [same] using inv.rings.status h earlier
  · intro _ same
    have more : held s.disk.driverIdx (s.disk.usedIdx + 1) = held s.disk.driverIdx s.disk.usedIdx + 1 :=
      held_push (by unfold num at room; omega)
    rw [held_eq_zero.mpr same] at more
    omega
  · have counts := inv.rings.counts
    simp only [List.length_append,List.length_singleton]
    omega
  · intro k b passed
    obtain ⟨c,completed,buffer⟩ := inv.rings.passed k b passed
    refine ⟨c,?_,buffer⟩
    rw [List.getElem?_append_left (List.getElem?_eq_some_iff.mp completed).1]
    exact completed
  · intro k q job' theirs position
    have counts := inv.rings.counts
    by_cases earlier : k < out.length
    · rw [List.getElem?_append_left earlier] at position
      obtain ⟨late,completed⟩ := inv.rings.coming k q job' theirs position
      refine ⟨late,?_⟩
      rw [List.getElem?_append_left (List.getElem?_eq_some_iff.mp completed).1]
      exact completed
    · have last : k = out.length := by
        have bound := (List.getElem?_eq_some_iff.mp position).1
        simp only [List.length_append,List.length_singleton] at bound
        omega
      subst last
      simp only [List.getElem?_concat_length,Option.some.injEq] at position
      obtain ⟨-,rfl⟩ := inv.chained.same_job mine (Pc.job_of_stage theirs) position.symm
      refine ⟨?_,?_⟩
      · rw [← counts]
        exact inv.chained.since p _ mine
      · rw [← counts]
        simp
  · intro c member
    obtain earlier | last := List.mem_append.mp member
    · exact inv.own c earlier
    · rw [List.mem_singleton.mp last]
      rfl

theorem locks_of_stage {q : P} {st : Stage} {job' : Job B} (at_ : (s.pc q).stage = some (st,job')) (early : st ≠ .wait) :
    (s.pc q).locks = true := by
  cases place : s.pc q <;> rw [place] at at_ <;> cases at_
  · rfl
  · rfl
  · exact absurd rfl early
  · exact absurd rfl early

theorem Inv.avail_room (inv : Inv blockno s pend out) {h : Fin num} (absent : h ∉ pend ++ s.busy ++ out) :
    held s.seen s.disk.availIdx < num := by
  rw [inv.rings.held_avail]
  refine room (h := h) (List.nodup_cons.mpr ⟨fun member => absent (by simp [member]),?_⟩)
  exact (List.nodup_append.mp (List.nodup_append.mp inv.queued.nodup).1).1

section
variable [DecidableEq P]

theorem stage_moved {q : P} {st : Stage} {job' : Job B} (at_ : (update s.pc p pc q).stage = some (st,job')) :
    q = p ∧ pc.stage = some (st,job') ∨ q ≠ p ∧ (s.pc q).stage = some (st,job') := by
  grind [Function.update_apply]

theorem job_goto (s : State P B) (job : pc.job = (s.pc p).job) (q : P) : ((s.goto p pc).pc q).job = (s.pc q).job := by
  grind

theorem stage_other {q : P} {st : Stage} {job' : Job B} (stage : (s.pc p).stage ≠ some (st,job'))
    (theirs : (s.pc q).stage = some (st,job')) : (update s.pc p pc q).stage = some (st,job') := by
  have other : q ≠ p := by
    rintro rfl
    exact stage theirs
  rwa [update_of_ne other]

namespace Chained

theorem add (chained : Chained blockno s) (p : P) (pc : Pc B) (moved : s'.pc = update s.pc p pc)
    (idle : (s.pc p).job = none) (new : pc.job = some job) (nodup : job.idx.all.Nodup) (open_ : ∀ i ∈ job.idx.all, s.disk.free i = true)
    (free : ∀ i, s'.disk.free i = if i ∈ job.idx.all then false else s.disk.free i)
    (formatted : Formatted blockno s'.disk job) (others : ∀ i, i ∉ job.idx.all →
      s'.disk.desc i = s.disk.desc i ∧ s'.disk.ops i = s.disk.ops i ∧ s'.disk.info i = s.disk.info i)
    (since : job.since ≤ s.done.length) (done : s'.done = s.done) : Chained blockno s' := by
  have pcs : ∀ q, s'.pc q = if q = p then pc else s.pc q := fun q => by rw [moved,Function.update_apply]
  have cases_ : ∀ {q job'}, (s'.pc q).job = some job' → q = p ∧ job' = job ∨ q ≠ p ∧ (s.pc q).job = some job' := by grind
  have apart : ∀ {q job' i}, (s.pc q).job = some job' → i ∈ job'.idx.all → i ∉ job.idx.all := by grind [chained.free]
  refine ⟨fun i => ?_,fun q job' theirs => ?_,fun q r job1 job2 i first second mem1 mem2 => ?_,fun q job' theirs => ?_,
    fun q job' theirs => ?_⟩
  · rw [free i]
    constructor
    · grind [chained.free]
    · grind [chained.free]
  · grind [chained.nodup]
  · grind [chained.apart]
  · obtain ⟨-,rfl⟩ | ⟨-,theirs⟩ := cases_ theirs
    · exact formatted
    · have head := others job'.idx.head (apart theirs (by simp [Chain.all]))
      refine (chained.formatted q job' theirs).congr (fun i member => ?_) head.2.1 (by rw [head.2.2])
      exact (others i (apart theirs member)).1
  · rw [done]
    obtain ⟨-,rfl⟩ | ⟨-,theirs⟩ := cases_ theirs
    · exact since
    · exact chained.since q job' theirs

theorem remove (chained : Chained blockno s) (p : P) (pc : Pc B) (moved : s'.pc = update s.pc p pc)
    (mine : (s.pc p).job = some job) (ends : pc.job = none) (free : ∀ i, s'.disk.free i = if i ∈ job.idx.all then true else s.disk.free i)
    (others : ∀ i, i ∉ job.idx.all →
      s'.disk.desc i = s.disk.desc i ∧ s'.disk.ops i = s.disk.ops i ∧ s'.disk.info i = s.disk.info i)
    (done : s'.done = s.done) : Chained blockno s' := by
  have pcs : ∀ q, s'.pc q = if q = p then pc else s.pc q := fun q => by rw [moved,Function.update_apply]
  have other : ∀ {q job'}, (s'.pc q).job = some job' → q ≠ p ∧ (s.pc q).job = some job' := by grind
  have apart : ∀ {q job' i}, q ≠ p → (s.pc q).job = some job' → i ∈ job'.idx.all → i ∉ job.idx.all :=
    fun others theirs member clash => others (chained.apart _ p _ job _ theirs mine member clash)
  refine ⟨fun i => ?_,fun q job' theirs => chained.nodup q job' (other theirs).2,fun q r job1 job2 i first second => ?_,
    fun q job' theirs => ?_,fun q job' theirs => ?_⟩
  · rw [free i]
    constructor
    · grind [chained.free]
    · grind [chained.free]
  · exact chained.apart q r job1 job2 i (other first).2 (other second).2
  · obtain ⟨distinct,theirs⟩ := other theirs
    have head := others job'.idx.head (apart distinct theirs (by simp [Chain.all]))
    refine (chained.formatted q job' theirs).congr (fun i member => ?_) head.2.1 (by rw [head.2.2])
    exact (others i (apart distinct theirs member)).1
  · rw [done]
    exact chained.since q job' (other theirs).2

end Chained

theorem ring_inv (inv : Inv blockno s pend out) (at_ : s.pc p = .ring job) :
    Inv blockno ({ s with disk := { s.disk with
      availRing := update s.disk.availRing (slot num s.disk.availIdx) (BitVec.ofNat 16 job.idx.head) } }.goto p
        (.bump job)) pend out := by
  have stage : (s.pc p).stage = some (.ring,job) := by rw [at_]; rfl
  obtain ⟨on,absent⟩ := inv.queued.fresh p _ job stage (by decide)
  have room := inv.avail_room absent
  refine ⟨?_,?_,?_,?_,inv.own,inv.calm⟩
  · refine inv.chained.keep (fun q => ?_) rfl (fun _ _ => rfl) rfl (fun _ => rfl) le_rfl
    exact job_goto { s with disk := _ } (by rw [at_]; rfl) q
  · refine Locked.goto (s := { s with disk := _ }) ⟨inv.locked.process,inv.locked.handler,inv.locked.owned⟩ ?_ fun b mine => ?_
    · simp [at_,Pc.locks]
    · exact inv.locked.owned p b (by rw [at_]; exact mine)
  · refine ⟨fun q st job' theirs early => ?_,fun q job' theirs => ?_,inv.queued.nodup,fun h member => ?_⟩
    · obtain ⟨-,same⟩ | ⟨-,theirs⟩ := stage_moved theirs
      · cases same
        exact ⟨on,absent⟩
      · exact inv.queued.fresh q st job' theirs early
    · obtain ⟨-,same⟩ | ⟨-,theirs⟩ := stage_moved theirs
      · cases same
      · exact inv.queued.waits q job' theirs
    · obtain ⟨q,job',theirs,head⟩ := inv.queued.owner h member
      exact ⟨q,job',stage_other (by simp [stage]) theirs,head⟩
  · refine ⟨?_,inv.rings.used,fun q job' theirs => ?_,inv.rings.status,inv.rings.body,inv.rings.counts,inv.rings.passed,
      fun k q job' theirs => ?_⟩
    · exact (window_store (by decide) _ _ _ _ room).trans inv.rings.avail
    · obtain ⟨-,same⟩ | ⟨other,theirs⟩ := stage_moved theirs
      · cases same
        simp [State.goto]
      · exact absurd (inv.locked.alone (by rw [at_]; rfl) (locks_of_stage theirs (by decide))) other
    · obtain ⟨-,same⟩ | ⟨-,theirs⟩ := stage_moved theirs
      · cases same
      · exact inv.rings.coming k q job' theirs

theorem bump_inv (inv : Inv blockno s pend out) (at_ : s.pc p = .bump job) :
    Inv blockno ({ s with disk := { s.disk with availIdx := s.disk.availIdx + 1 } }.goto p (.wait job))
      (pend ++ [job.idx.head]) out := by
  have stage : (s.pc p).stage = some (.bump,job) := by rw [at_]; rfl
  have mine := Pc.job_of_stage stage
  obtain ⟨on,absent⟩ := inv.queued.fresh p _ job stage (by decide)
  have perm : (pend ++ [job.idx.head] ++ s.busy ++ out).Perm (job.idx.head :: (pend ++ s.busy ++ out)) := by
    simp only [List.append_assoc,List.singleton_append]
    exact List.perm_middle
  have room := inv.avail_room absent
  refine ⟨?_,?_,?_,?_,inv.own,inv.calm⟩
  · refine inv.chained.keep (fun q => ?_) rfl (fun _ _ => rfl) rfl (fun _ => rfl) le_rfl
    exact job_goto { s with disk := _ } (by rw [at_]; rfl) q
  · refine Locked.goto (s := { s with disk := _ }) ⟨inv.locked.process,inv.locked.handler,inv.locked.owned⟩ ?_ fun b mine => ?_
    · simp [at_,Pc.locks]
    · exact inv.locked.owned p b (by rw [at_]; exact mine)
  · refine ⟨fun q st job' theirs early => ?_,fun q job' theirs => ?_,?_,fun h member => ?_⟩
    · obtain ⟨-,same⟩ | ⟨other,theirs⟩ := stage_moved theirs
      · cases same
        exact absurd rfl early
      · exact absurd (inv.locked.alone (by rw [at_]; rfl) (locks_of_stage theirs early)) other
    · simp only [State.goto,perm.mem_iff,List.mem_cons]
      obtain ⟨-,same⟩ | ⟨other,theirs⟩ := stage_moved theirs
      · cases same
        exact .inl ⟨on,.inl rfl⟩
      · simp only [inv.chained.head_ne mine (Pc.job_of_stage theirs) other,false_or]
        exact inv.queued.waits q job' theirs
    · exact perm.nodup_iff.mpr (List.nodup_cons.mpr ⟨absent,inv.queued.nodup⟩)
    · obtain same | earlier := List.mem_cons.mp (perm.mem_iff.mp member)
      · exact ⟨p,job,by simp [State.goto,Pc.stage],same.symm⟩
      · obtain ⟨q,job',theirs,head⟩ := inv.queued.owner h earlier
        exact ⟨q,job',stage_other (by simp [stage]) theirs,head⟩
  · refine ⟨?_,inv.rings.used,fun q job' theirs => ?_,inv.rings.status,inv.rings.body,inv.rings.counts,inv.rings.passed,
      fun k q job' theirs position => ?_⟩
    · have wide : held s.seen s.disk.availIdx + 1 < 2^16 := by
        unfold num at room
        omega
      have seen := window_advance s.disk.availRing wide
      rw [inv.rings.avail,inv.rings.stored p job stage] at seen
      rw [List.map_append]
      exact seen
    · obtain ⟨-,same⟩ | ⟨other,theirs⟩ := stage_moved theirs
      · cases same
      · exact absurd (inv.locked.alone (by rw [at_]; rfl) (locks_of_stage theirs (by decide))) other
    · obtain ⟨-,same⟩ | ⟨-,theirs⟩ := stage_moved theirs
      · cases same
        exact absurd (List.mem_append_right _ (List.mem_of_getElem? position)) absent
      · exact inv.rings.coming k q job' theirs position

theorem finish_inv (inv : Inv blockno s pend out) (at_ : s.pc p = .wait job) (off : s.bdisk job.b = false) :
    Inv blockno (rwFinish s p job) pend out := by
  have locks : (s.pc p).locks = true := by rw [at_]; rfl
  have stage : (s.pc p).stage = some (.wait,job) := by rw [at_]; rfl
  have mine := Pc.job_of_stage stage
  obtain ⟨on,-⟩ | ⟨-,absent,-⟩ := inv.queued.waits p job stage
  · rw [off] at on
    cases on
  have taken : ∀ i ∈ job.idx.all, s.disk.free i = false := fun i member => (inv.chained.free i).mpr ⟨p,job,mine,member⟩
  unfold rwFinish
  dsimp only
  obtain ⟨desc',free',frees,free,desc⟩ := freeChain_formatted { s.disk with
    info := update s.disk.info job.idx.head { s.disk.info job.idx.head with b := none } }
    (inv.chained.formatted p job mine) rfl rfl (inv.chained.nodup p job mine) taken
  rw [frees]
  dsimp only
  have status : ∀ h, (update s.disk.info job.idx.head
      { s.disk.info job.idx.head with b := none } h).status = (s.disk.info h).status := by
    intro h
    by_cases same : h = job.idx.head
    · simp [same]
    · simp [same]
  refine ⟨?_,?_,?_,?_,inv.own,inv.calm⟩
  · refine inv.chained.remove p .idle rfl mine rfl free (fun i outside => ⟨desc i outside,rfl,?_⟩) rfl
    have other : i ≠ job.idx.head := by
      rintro rfl
      exact outside (by simp [Chain.all])
    simp [State.drop,State.goto,other]
  · exact Locked.drop (s := { s with disk := _ }) ⟨inv.locked.process,inv.locked.handler,inv.locked.owned⟩ locks rfl (by rintro _ ⟨⟩)
  · refine ⟨fun q st job' theirs early => ?_,fun q job' theirs => ?_,inv.queued.nodup,fun h member => ?_⟩
    · obtain ⟨-,ended⟩ | ⟨-,theirs⟩ := stage_moved theirs
      · cases ended
      · exact inv.queued.fresh q st job' theirs early
    · obtain ⟨-,ended⟩ | ⟨-,theirs⟩ := stage_moved theirs
      · cases ended
      · exact inv.queued.waits q job' theirs
    · obtain ⟨q,job',theirs,head⟩ := inv.queued.owner h member
      refine ⟨q,job',stage_other (fun same => ?_) theirs,head⟩
      rw [stage] at same
      cases same
      exact absent (head ▸ member)
  · refine ⟨inv.rings.avail,inv.rings.used,fun q job' theirs => ?_,fun h member => ?_,inv.rings.body,inv.rings.counts,
      inv.rings.passed,fun k q job' theirs position => ?_⟩
    · obtain ⟨-,ended⟩ | ⟨-,theirs⟩ := stage_moved theirs
      · cases ended
      · exact inv.rings.stored q job' theirs
    · exact (status h).trans (inv.rings.status h member)
    · obtain ⟨-,ended⟩ | ⟨-,theirs⟩ := stage_moved theirs
      · cases ended
      · exact inv.rings.coming k q job' theirs position

end

section
variable [DecidableEq B]

theorem body_inv (inv : Inv blockno s pend out) (body : s.handler = some .body) :
    ∃ s' out', handle s = some s' ∧ Inv blockno s' pend out' := by
  have nonempty := inv.rings.body body
  have used := inv.rings.used
  rw [window_pop _ nonempty] at used
  cases out with
  | nil => cases used
  | cons h out =>
    obtain ⟨first,rest⟩ := List.cons.inj used
    obtain ⟨p,job,wait,rfl,formatted⟩ := inv.waiting (h := h) (by simp)
    have mine := Pc.job_of_stage wait
    have status := inv.rings.status job.idx.head List.mem_cons_self
    obtain ⟨late,completed⟩ := inv.rings.coming 0 p job wait rfl
    have counts := inv.rings.counts
    have nodup : (job.idx.head :: (pend ++ s.busy ++ out)).Nodup := List.nodup_middle.mp inv.queued.nodup
    have inside : ∀ h', h' ∈ pend ++ s.busy ++ job.idx.head :: out ↔ h' = job.idx.head ∨ h' ∈ pend ++ s.busy ++ out :=
      fun h' => by simp [or_left_comm]
    refine ⟨{ s with
      bdisk := update s.bdisk job.b false, delivered := s.delivered ++ [job.b],
      disk := { s.disk with driverIdx := s.disk.driverIdx + 1 }, handler := some .test },out,?_,?_,?_,?_,?_,inv.own,inv.calm⟩
    · simp only [handle,body,first,ofNat32_toNat,Fin.is_lt,dif_pos,Fin.eta,status,formatted.info]
      rfl
    · exact inv.chained.keep (fun _ => rfl) rfl (fun _ _ => rfl) rfl (fun _ => rfl) le_rfl
    · refine ⟨inv.locked.process,?_,inv.locked.owned⟩
      simpa [body] using inv.locked.handler
    · refine ⟨fun q st job' theirs early => ?_,fun q job' theirs => ?_,(List.nodup_cons.mp nodup).2,fun h' member => ?_⟩
      · have other : q ≠ p := by
          rintro rfl
          rw [wait] at theirs
          cases theirs
          exact early rfl
        obtain ⟨on,absent⟩ := inv.queued.fresh q st job' theirs early
        refine ⟨?_,fun member => absent ((inside _).mpr (.inr member))⟩
        simpa [inv.locked.buf_ne mine (Pc.job_of_stage theirs) other] using on
      · by_cases me : q = p
        · subst me
          rw [wait] at theirs
          cases theirs
          refine .inr ⟨by simp,(List.nodup_cons.mp nodup).1,s.delivered.length,late,completed,by simp⟩
        · have head := inv.chained.head_ne mine (Pc.job_of_stage theirs) me
          have buf := inv.locked.buf_ne mine (Pc.job_of_stage theirs) me
          have waits := inv.queued.waits q job' theirs
          simp only [inside,head,false_or] at waits
          simp only [update_of_ne buf]
          exact waits.imp_right fun still => ⟨still.1,still.2.1,still.2.2.mono (List.append_nil _).symm rfl⟩
      · exact inv.queued.owner h' ((inside h').mpr (.inr member))
    · refine ⟨inv.rings.avail,rest,inv.rings.stored,fun h' member => inv.rings.status h' (List.mem_cons_of_mem _ member),
        by simp,?_,fun k b passed => ?_,fun k q job' theirs position => ?_⟩
      · simp only [List.length_append,List.length_cons,List.length_nil] at counts ⊢
        omega
      · by_cases earlier : k < s.delivered.length
        · rw [List.getElem?_append_left earlier] at passed
          exact inv.rings.passed k b passed
        · have bound := (List.getElem?_eq_some_iff.mp passed).1
          simp only [List.length_append,List.length_singleton] at bound
          have last : k = s.delivered.length := by omega
          subst last
          simp only [List.getElem?_concat_length,Option.some.injEq] at passed
          exact ⟨_,completed,passed⟩
      · have coming := inv.rings.coming (k + 1) q job' theirs position
        simpa [Nat.add_assoc,Nat.add_comm 1 k] using coming

section
variable [DecidableEq P]

theorem alloc_inv (inv : Inv blockno s pend out) {b : B} {write : Bool} (at_ : s.pc p = .alloc b write) :
    Inv blockno (rwAlloc blockno s p b write) pend out := by
  have locks : (s.pc p).locks = true := by rw [at_]; rfl
  have owns := inv.locked.owned p b (by rw [at_]; rfl)
  have none_ : (s.pc p).stage = none := by rw [at_]; rfl
  unfold rwAlloc
  obtain ⟨d,fails,free,same⟩ | ⟨idx,d,takes,nodup,open_,free,desc,same⟩ := alloc3Desc_cases s.disk
  · rw [fails]
    have locked : Locked ({ s with disk := d }.drop p (.allocSleep b write)) :=
      Locked.drop (s := { s with disk := d }) ⟨inv.locked.process,inv.locked.handler,inv.locked.owned⟩ locks rfl
        fun b' mine => by cases mine; exact owns
    refine inv.shift same free rfl (fun q => ?_) ⟨rfl,rfl,rfl,rfl⟩ ?_ rfl locked
    · exact stage_goto { s with disk := d, lock := none } (by rw [none_]; rfl) q
    · intro body
      have avail := inv.rings.body body
      rw [← same.used.1,← same.used.2.2] at avail
      exact avail
  · rw [takes]
    have taken : ∀ q job, (s.pc q).job = some job → ∀ i ∈ job.idx.all, i ∉ idx.all := by
      intro q job theirs i member clash
      have busy := (inv.chained.free i).mpr ⟨q,job,theirs,member⟩
      rw [open_ i clash] at busy
      cases busy
    have heads : ∀ q job, (s.pc q).job = some job → job.idx.head ≠ idx.head := by
      intro q job theirs clash
      exact taken q job theirs job.idx.head (by simp [Chain.all]) (by simp [clash,Chain.all])
    have absent : idx.head ∉ pend ++ s.busy ++ out := by
      intro member
      obtain ⟨q,job,wait,clash,-⟩ := inv.waiting member
      exact heads q job (Pc.job_of_stage wait) clash
    refine ⟨?_,?_,?_,?_,inv.own,inv.calm⟩
    · refine inv.chained.add p (.ring ⟨b,write,idx,s.done.length⟩) rfl (by rw [Pc.job,none_]; rfl) rfl nodup open_
        free (format_formatted nodup) (fun i outside => ?_) le_rfl rfl
      have unchanged := format_others (blockno b) d b write outside
      rw [desc,same.ops,same.info] at unchanged
      exact unchanged
    · refine Locked.goto (s := { s with disk := _, bdisk := _ }) ⟨inv.locked.process,inv.locked.handler,inv.locked.owned⟩ ?_
        fun b' mine => ?_
      · exact locks.symm
      · cases mine
        exact owns
    · refine ⟨fun q st job theirs early => ?_,fun q job theirs => ?_,inv.queued.nodup,fun h member => ?_⟩
      · obtain ⟨-,mine⟩ | ⟨other,theirs⟩ := stage_moved theirs
        · cases mine
          exact ⟨by simp [State.goto],absent⟩
        · exact absurd (inv.locked.alone locks (locks_of_stage theirs early)) other
      · obtain ⟨-,mine⟩ | ⟨other,theirs⟩ := stage_moved theirs
        · cases mine
        · have buf : job.b ≠ b := by
            rintro rfl
            have held := inv.locked.owned q _ (Pc.buf_of_stage theirs)
            rw [owns] at held
            exact other (Option.some.inj held).symm
          simpa [State.goto,buf,Delivered] using inv.queued.waits q job theirs
      · obtain ⟨q,job,theirs,head⟩ := inv.queued.owner h member
        exact ⟨q,job,stage_other (by simp [none_]) theirs,head⟩
    · have rings := inv.rings
      refine ⟨?_,?_,fun q job theirs => ?_,fun h member => ?_,?_,rings.counts,rings.passed,fun k q job theirs position => ?_⟩
      · have avail := rings.avail
        rw [← same.avail.1,← same.avail.2] at avail
        exact avail
      · have used := rings.used
        rw [← same.used.1,← same.used.2.1,← same.used.2.2] at used
        exact used
      · obtain ⟨-,mine⟩ | ⟨other,theirs⟩ := stage_moved theirs
        · cases mine
        · exact absurd (inv.locked.alone locks (locks_of_stage theirs (by decide))) other
      · have other : h ≠ idx.head := by
          rintro rfl
          exact absent (List.mem_append_right _ member)
        have status := rings.status h member
        rw [← same.info] at status
        simpa [State.goto,format,other] using status
      · have body := rings.body
        rw [← same.used.1,← same.used.2.2] at body
        exact body
      · obtain ⟨-,mine⟩ | ⟨-,theirs⟩ := stage_moved theirs
        · cases mine
        · exact rings.coming k q job theirs position

end

theorem handle_inv (inv : Inv blockno s pend out) (moves : handle s = some s') : ∃ out', Inv blockno s' pend out' := by
  cases at_ : s.handler with
  | none => simp [handle,at_] at moves
  | some place =>
    cases place with
    | body =>
      obtain ⟨s1,out',does,keeps⟩ := body_inv inv at_
      rw [does] at moves
      cases moves
      exact ⟨out',keeps⟩
    | test =>
      refine ⟨out,?_⟩
      simp only [handle,at_] at moves
      have held := inv.locked.handler
      simp only [at_,Option.isSome_some,true_iff] at held
      split_ifs at moves with more
      · cases moves
        refine inv.quiet ⟨inv.locked.process,?_,inv.locked.owned⟩ rfl (fun _ => rfl) fun _ => more
        simpa using held
      · cases moves
        refine inv.quiet ⟨fun q => ?_,by simp,inv.locked.owned⟩ rfl (fun _ => rfl) (by simp)
        simpa [held] using inv.locked.process q

end

end Xv6.Virtio
