import Xv6.Virtio.Chains

/-! The invariant of driver and device. A request that has its descriptors is
formatted, then stored in the avail ring, then waits. While it waits its chain
head is in exactly one place: in the avail ring, with the device, or in the used
ring. -/
namespace Xv6.Virtio
open Lib Lib.Ring
variable {P B : Type} {blockno : B → BitVec 32}

inductive Stage where
  | ring
  | bump
  | wait
  deriving DecidableEq

def Pc.stage : Pc B → Option (Stage × Job B)
  | .ring job => some (.ring,job)
  | .bump job => some (.bump,job)
  | .wait job | .waitSleep job => some (.wait,job)
  | _ => none

def Pc.job (pc : Pc B) : Option (Job B) := pc.stage.map Prod.snd

def Pc.buf : Pc B → Option B
  | .idle => none
  | .enter b _ | .alloc b _ | .allocSleep b _ => some b
  | .ring job | .bump job | .wait job | .waitSleep job => some job.b

def Pc.locks : Pc B → Bool
  | .alloc _ _ | .ring _ | .bump _ | .wait _ => true
  | _ => false

def Delivered (blockno : B → BitVec 32) (s : State P B) (job : Job B) : Prop :=
  ∃ k, job.since ≤ k ∧ s.done[k]? = some (job.completion blockno) ∧ s.delivered[k]? = some job.b

/-- The descriptors that are not free are those of the requests. -/
structure Chained (blockno : B → BitVec 32) (s : State P B) : Prop where
  free : ∀ i, s.disk.free i = false ↔ ∃ p job, (s.pc p).job = some job ∧ i ∈ job.idx.all
  nodup : ∀ p job, (s.pc p).job = some job → job.idx.all.Nodup
  apart : ∀ p q job job' i, (s.pc p).job = some job → (s.pc q).job = some job' →
    i ∈ job.idx.all → i ∈ job'.idx.all → p = q
  formatted : ∀ p job, (s.pc p).job = some job → Formatted blockno s.disk job
  since : ∀ p job, (s.pc p).job = some job → job.since ≤ s.done.length

structure Locked (s : State P B) : Prop where
  process : ∀ p, (s.pc p).locks = true ↔ s.lock = some (.process p)
  handler : s.handler.isSome = true ↔ s.lock = some .handler
  owned : ∀ p b, (s.pc p).buf = some b → s.holder b = some p

/-- `queue` are the chain heads that the rings and the device have. -/
structure Queued (blockno : B → BitVec 32) (s : State P B) (queue : List (Fin num)) : Prop where
  fresh : ∀ p st job, (s.pc p).stage = some (st,job) → st ≠ .wait → s.bdisk job.b = true ∧ job.idx.head ∉ queue
  waits : ∀ p job, (s.pc p).stage = some (.wait,job) →
    s.bdisk job.b = true ∧ job.idx.head ∈ queue ∨
      s.bdisk job.b = false ∧ job.idx.head ∉ queue ∧ Delivered blockno s job
  nodup : queue.Nodup
  owner : ∀ h ∈ queue, ∃ p job, (s.pc p).stage = some (.wait,job) ∧ job.idx.head = h

/-- `pend` are the heads in the avail ring that the device has not read, `out`
those in the used ring that the driver has not read. -/
structure Rings (blockno : B → BitVec 32) (s : State P B) (pend out : List (Fin num)) : Prop where
  avail : window s.disk.availRing s.seen (held s.seen s.disk.availIdx) = pend.map fun h : Fin num => BitVec.ofNat 16 h
  used : window s.disk.usedRing s.disk.driverIdx (held s.disk.driverIdx s.disk.usedIdx) =
    out.map fun h : Fin num => BitVec.ofNat 32 h
  stored : ∀ p job, (s.pc p).stage = some (.bump,job) →
    s.disk.availRing (slot num s.disk.availIdx) = BitVec.ofNat 16 job.idx.head
  status : ∀ h ∈ out, (s.disk.info h).status = 0
  body : s.handler = some .body → s.disk.driverIdx ≠ s.disk.usedIdx
  counts : s.done.length = s.delivered.length + out.length
  passed : ∀ (k : Nat) b, s.delivered[k]? = some b → ∃ c, s.done[k]? = some c ∧ c.buffer = b
  coming : ∀ (k : Nat) p job, (s.pc p).stage = some (.wait,job) → out[k]? = some job.idx.head →
    job.since ≤ s.delivered.length + k ∧ s.done[s.delivered.length + k]? = some (job.completion blockno)

structure Inv (blockno : B → BitVec 32) (s : State P B) (pend out : List (Fin num)) : Prop where
  chained : Chained blockno s
  locked : Locked s
  queued : Queued blockno s (pend ++ s.busy ++ out)
  rings : Rings blockno s pend out
  own : ∀ c ∈ s.done, c.sector = sector (blockno c.buffer)
  calm : s.panicked = none

section
variable {s s' : State P B} {pend out queue queue' : List (Fin num)} {p q : P} {pc : Pc B} {job job' : Job B} {st : Stage}

theorem Pc.job_of_stage (at_ : pc.stage = some (st,job)) : pc.job = some job := by
  rw [Pc.job,at_]
  rfl

theorem Pc.buf_of_stage (at_ : pc.stage = some (st,job)) : pc.buf = some job.b := by
  cases pc <;> cases at_ <;> rfl

theorem Delivered.mono {rest : List (Completion B)} {more : List B} (was : Delivered blockno s job)
    (done : s'.done = s.done ++ rest) (delivered : s'.delivered = s.delivered ++ more) : Delivered blockno s' job := by
  obtain ⟨k,late,completed,passed⟩ := was
  refine ⟨k,late,?_,?_⟩
  · rw [done,List.getElem?_append_left (List.getElem?_eq_some_iff.mp completed).1]
    exact completed
  · rw [delivered,List.getElem?_append_left (List.getElem?_eq_some_iff.mp passed).1]
    exact passed

namespace Chained

theorem keep (chained : Chained blockno s) (jobs : ∀ q, (s'.pc q).job = (s.pc q).job)
    (free : s'.disk.free = s.disk.free) (desc : ∀ i, s.disk.free i = false → s'.disk.desc i = s.disk.desc i)
    (ops : s'.disk.ops = s.disk.ops) (info : ∀ i, (s'.disk.info i).b = (s.disk.info i).b)
    (done : s.done.length ≤ s'.done.length) : Chained blockno s' := by
  refine ⟨?_,?_,?_,?_,?_⟩ <;> simp only [jobs,free]
  · exact chained.free
  · exact chained.nodup
  · exact chained.apart
  · intro p job mine
    refine (chained.formatted p job mine).congr (fun i member => desc i ?_) (by rw [ops]) (info _)
    exact (chained.free i).mpr ⟨p,job,mine,member⟩
  · exact fun p job mine => (chained.since p job mine).trans done

theorem head_ne (chained : Chained blockno s) (mine : (s.pc p).job = some job) (theirs : (s.pc q).job = some job')
    (other : q ≠ p) : job'.idx.head ≠ job.idx.head := by
  intro same
  refine other (chained.apart q p job' job job.idx.head theirs mine ?_ ?_)
  · simp [← same,Chain.all]
  · simp [Chain.all]

theorem same_job (chained : Chained blockno s) (mine : (s.pc p).job = some job)
    (theirs : (s.pc q).job = some job') (head : job'.idx.head = job.idx.head) : q = p ∧ job' = job := by
  have me : q = p := by
    by_contra other
    exact chained.head_ne mine theirs other head
  subst me
  rw [mine] at theirs
  exact ⟨rfl,(Option.some.inj theirs).symm⟩

end Chained

theorem Locked.buf_ne (locked : Locked s) (mine : (s.pc p).job = some job) (theirs : (s.pc q).job = some job')
    (other : q ≠ p) : job'.b ≠ job.b := by
  intro same
  have buf : ∀ {q} {job : Job B}, (s.pc q).job = some job → (s.pc q).buf = some job.b := by
    intro q job mine
    obtain ⟨⟨st,job⟩,stage,rfl⟩ := Option.map_eq_some_iff.mp mine
    exact Pc.buf_of_stage stage
  have held := locked.owned q _ (buf theirs)
  rw [same,locked.owned p _ (buf mine)] at held
  exact other (Option.some.inj held).symm

theorem Locked.unlocked (locked : Locked s) (open_ : s.lock = none) (q : P) : (s.pc q).locks = false := by
  have free := locked.process q
  simpa [open_] using free

theorem Locked.alone (locked : Locked s) (mine : (s.pc p).locks = true) (theirs : (s.pc q).locks = true) : q = p := by
  have held := (locked.process q).mp theirs
  rw [(locked.process p).mp mine] at held
  cases held
  rfl

theorem Queued.keep (queued : Queued blockno s queue) (stages : ∀ q, (s'.pc q).stage = (s.pc q).stage)
    (bdisk : s'.bdisk = s.bdisk) (perm : queue'.Perm queue)
    (delivered : ∀ job, Delivered blockno s job → Delivered blockno s' job) : Queued blockno s' queue' := by
  refine ⟨?_,?_,perm.nodup_iff.mpr queued.nodup,?_⟩ <;> simp only [stages,bdisk,perm.mem_iff]
  · exact queued.fresh
  · intro p job wait
    exact (queued.waits p job wait).imp_right fun ⟨off,gone,was⟩ => ⟨off,gone,delivered job was⟩
  · exact queued.owner

theorem Inv.waiting (inv : Inv blockno s pend out) {h : Fin num} (member : h ∈ pend ++ s.busy ++ out) :
    ∃ p job, (s.pc p).stage = some (.wait,job) ∧ job.idx.head = h ∧ Formatted blockno s.disk job := by
  obtain ⟨p,job,wait,same⟩ := inv.queued.owner h member
  exact ⟨p,job,wait,same,inv.chained.formatted p job (Pc.job_of_stage wait)⟩

theorem room {heads : List (Fin num)} {h : Fin num} (nodup : (h :: heads).Nodup) : heads.length < num := by
  have bound := nodup.length_le_card
  rw [Fintype.card_fin,List.length_cons] at bound
  exact bound

theorem Rings.held_avail (rings : Rings blockno s pend out) : held s.seen s.disk.availIdx = pend.length := by
  have lengths := congrArg List.length rings.avail
  simpa [window] using lengths

theorem Rings.held_used (rings : Rings blockno s pend out) : held s.disk.driverIdx s.disk.usedIdx = out.length := by
  have lengths := congrArg List.length rings.used
  simpa [window] using lengths

/-- Only the places of the processes and of the handler change, and who holds
vdisk_lock and the buffers. Descriptors that are free may change. -/
theorem Inv.shift (inv : Inv blockno s pend out) (disk : SameTaken s.disk s'.disk)
    (free : s'.disk.free = s.disk.free) (bdisk : s'.bdisk = s.bdisk)
    (stages : ∀ q, (s'.pc q).stage = (s.pc q).stage)
    (device : s'.seen = s.seen ∧ s'.busy = s.busy ∧ s'.done = s.done ∧ s'.delivered = s.delivered)
    (body : s'.handler = some .body → s'.disk.driverIdx ≠ s'.disk.usedIdx) (panicked : s'.panicked = s.panicked)
    (locked : Locked s') : Inv blockno s' pend out := by
  obtain ⟨seen,busy,done,delivered⟩ := device
  obtain ⟨desc,⟨availIdx,availRing⟩,⟨usedIdx,usedRing,driverIdx⟩,info,ops⟩ := disk
  refine ⟨?_,locked,?_,?_,by rw [done]; exact inv.own,panicked.trans inv.calm⟩
  · exact inv.chained.keep (fun q => by simp only [Pc.job,stages]) free desc ops (fun i => by rw [info]) (by rw [done])
  · rw [busy]
    refine inv.queued.keep stages bdisk (.refl _) fun job was => ?_
    exact was.mono (by rw [done,List.append_nil]) (by rw [delivered,List.append_nil])
  · have rings := inv.rings
    refine ⟨?_,?_,?_,?_,body,?_,?_,?_⟩ <;>
      simp only [stages,seen,done,delivered,availIdx,availRing,usedIdx,usedRing,driverIdx,info]
    · exact rings.avail
    · exact rings.used
    · exact rings.stored
    · exact rings.status
    · exact rings.counts
    · exact rings.passed
    · exact rings.coming

end

end Xv6.Virtio
