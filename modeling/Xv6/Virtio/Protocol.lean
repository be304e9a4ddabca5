import Xv6.Virtio.Steps

/-! The request protocol between driver and device. The descriptors that are not
free are those of the requests in flight, no unread slot of the avail ring is
overwritten, no panic is reached, and virtio_disk_rw(b) returns after the device
has carried out its request. That request is for b's own block unless the sector
number, computed in 32 bits, overflows. -/
namespace Xv6.Virtio
open Lib Lib.Ring
variable {P B : Type} [DecidableEq P] [DecidableEq B] {blockno : B → BitVec 32} {s s' : State P B}

omit [DecidableEq P] [DecidableEq B] in
theorem initial_inv : Inv blockno (initial : State P B) [] [] := by
  refine ⟨⟨?_,?_,?_,?_,?_⟩,⟨?_,?_,?_⟩,⟨?_,?_,?_,?_⟩,⟨?_,?_,?_,?_,?_,rfl,?_,?_⟩,?_,rfl⟩ <;>
    simp [initial,Pc.job,Pc.stage,Pc.locks,Pc.buf,held]

theorem run_inv {p : P} {pend out : List (Fin num)} (inv : Inv blockno s pend out) (moves : run blockno s p = some s') :
    ∃ pend', Inv blockno s' pend' out := by
  cases at_ : s.pc p <;> simp only [run,at_] at moves
  case enter => exact ⟨pend,take_inv inv rfl (by rw [at_]; rfl) (by rw [at_]; rfl) moves⟩
  case allocSleep => exact ⟨pend,take_inv inv rfl (by rw [at_]; rfl) (by rw [at_]; rfl) moves⟩
  case waitSleep => exact ⟨pend,take_inv inv rfl (by rw [at_]; rfl) (by rw [at_]; rfl) moves⟩
  case alloc =>
    cases moves
    exact ⟨pend,alloc_inv inv at_⟩
  case ring =>
    cases moves
    exact ⟨pend,ring_inv inv at_⟩
  case bump =>
    cases moves
    exact ⟨_,bump_inv inv at_⟩
  case wait job =>
    split_ifs at moves with on
    · cases moves
      exact ⟨pend,drop_inv inv (by rw [at_]; rfl) rfl (by rw [at_]; rfl) (by rw [at_]; rfl)⟩
    · cases moves
      exact ⟨pend,finish_inv inv at_ (by simpa using on)⟩
  case idle => cases moves

theorem step_inv {label : Label P B} {pend out : List (Fin num)} (inv : Inv blockno s pend out)
    (moves : step blockno s label = some s') : ∃ pend' out', Inv blockno s' pend' out' := by
  cases label with
  | acquiresleep p b =>
    simp only [step] at moves
    split_ifs at moves with open_
    cases moves
    refine ⟨pend,out,holder_inv inv fun q b' mine => ?_⟩
    have theirs := inv.locked.owned q b' mine
    have other : b' ≠ b := by
      rintro rfl
      rw [open_] at theirs
      cases theirs
    rwa [Function.update_of_ne other]
  | releasesleep p b =>
    cases at_ : s.pc p <;> simp only [step,at_] at moves
    case idle =>
      split_ifs at moves with held
      cases moves
      refine ⟨pend,out,holder_inv inv fun q b' mine => ?_⟩
      have theirs := inv.locked.owned q b' mine
      have other : b' ≠ b := by
        rintro rfl
        rw [held] at theirs
        cases theirs
        rw [at_] at mine
        cases mine
      rwa [Function.update_of_ne other]
    all_goals cases moves
  | rw p b write =>
    cases at_ : s.pc p <;> simp only [step,at_] at moves
    case idle =>
      split_ifs at moves with held
      cases moves
      refine ⟨pend,out,inv.quiet (inv.locked.goto (by rw [at_]; rfl) fun b' mine => ?_) rfl
        (stage_goto s (by rw [at_]; rfl)) inv.rings.body⟩
      cases mine
      exact held
    all_goals cases moves
  | run p =>
    simp only [step,inv.calm,if_true] at moves
    obtain ⟨pend',keeps⟩ := run_inv inv moves
    exact ⟨pend',out,keeps⟩
  | interrupt =>
    simp only [step] at moves
    split_ifs at moves with open_
    cases moves
    exact ⟨pend,out,interrupt_inv inv open_⟩
  | handle =>
    simp only [step,inv.calm,if_true] at moves
    exact ⟨pend,handle_inv inv moves⟩
  | consume =>
    obtain ⟨pend',keeps⟩ := consume_inv inv moves
    exact ⟨pend',out,keeps⟩
  | complete head => exact ⟨pend,complete_inv inv moves⟩

theorem reachable_inv (reached : (system P blockno).Reachable s) : ∃ pend out, Inv blockno s pend out := by
  induction reached with
  | start s first =>
    rw [show s = initial from first]
    exact ⟨[],[],initial_inv⟩
  | next s label s' before moves ih =>
    obtain ⟨pend,out,inv⟩ := ih
    exact step_inv inv moves

/-- The requests in flight, with the descriptors they own, and what the device
and virtio_disk_intr make of them. -/
structure Protocol (blockno : B → BitVec 32) (s : State P B) : Prop where
  free : ∀ i, s.disk.free i = false ↔ ∃ p job, (s.pc p).job = some job ∧ i ∈ job.idx.all
  triple : ∀ p job, (s.pc p).job = some job → job.idx.all.Nodup ∧ Formatted blockno s.disk job
  disjoint : ∀ p q job job' i, (s.pc p).job = some job → (s.pc q).job = some job' →
    i ∈ job.idx.all → i ∈ job'.idx.all → p = q
  -- the slot that virtio_disk_rw is about to write is none that the device has still to read
  unread : ∀ p job k, s.pc p = .ring job → k < held s.seen s.disk.availIdx →
    slot num (s.seen + BitVec.ofNat 16 k) ≠ slot num s.disk.availIdx
  calm : s.panicked = none
  found : ∀ h ∈ s.busy, ∃ p job, (s.pc p).job = some job ∧ job.idx.head = h ∧
    request s.disk h = some (job.completion blockno,h)
  -- disk.used->ring names a chain head with a buffer
  handled : s.handler = some .body → (handle s).isSome
  delivered : ∀ (k : Nat) b, s.delivered[k]? = some b → ∃ c, s.done[k]? = some c ∧ c.buffer = b

omit [DecidableEq P] in
theorem Inv.protocol {pend out : List (Fin num)} (inv : Inv blockno s pend out) : Protocol blockno s where
  free := inv.chained.free
  triple p job mine := ⟨inv.chained.nodup p job mine,inv.chained.formatted p job mine⟩
  disjoint := inv.chained.apart
  unread p job k at_ unread := by
    have fresh := inv.queued.fresh p .ring job (by rw [at_]; rfl) (by decide)
    have room := inv.avail_room fresh.2
    have target : s.seen + BitVec.ofNat 16 (held s.seen s.disk.availIdx) = s.disk.availIdx := add_distance _ _
    rw [← target]
    exact slot_add_ne (by decide) s.seen unread (by omega)
  calm := inv.calm
  found h busy := by
    obtain ⟨p,job,wait,rfl,formatted⟩ := inv.waiting (h := h) (by simp [busy])
    exact ⟨p,job,Pc.job_of_stage wait,rfl,formatted.request⟩
  handled body := by
    obtain ⟨s',-,does,-⟩ := body_inv inv body
    rw [does]
    rfl
  delivered := inv.rings.passed

/-- After the request was formatted the device completed it: a transfer of b's
block with b->data, in the right direction, passed on to b. -/
def Served (blockno : B → BitVec 32) (s : State P B) (job : Job B) : Prop :=
  ∃ k c, job.since ≤ k ∧ s.done[k]? = some c ∧ s.delivered[k]? = some job.b ∧ c.buffer = job.b ∧
    c.type_ = (if job.write then virtioBlkTOut else virtioBlkTIn) ∧ c.writes = (!job.write) ∧
    c.sector.toNat = 2 * (blockno job.b).toNat

theorem sector_exact (n : BitVec 32) : (sector n).toNat = 2 * n.toNat ↔ n.toNat < 2^31 := by
  have bound := n.isLt
  simp only [sector,bsize,BitVec.toNat_setWidth,BitVec.toNat_mul,BitVec.toNat_ofNat]
  omega

theorem returns_off {p : P} {job : Job B} (at_ : s.pc p = .wait job) (moves : step blockno s (.run p) = some s')
    (returns : s'.pc p = .idle) : s.bdisk job.b = false := by
  by_contra on
  simp only [Bool.not_eq_false] at on
  simp only [step,run,at_,on,if_true] at moves
  split_ifs at moves
  cases moves
  simp [State.drop,State.goto] at returns

theorem returns_served {p : P} {job : Job B} (reached : (system P blockno).Reachable s) (at_ : s.pc p = .wait job)
    (moves : step blockno s (.run p) = some s') (returns : s'.pc p = .idle) :
    Served blockno s job ↔ (blockno job.b).toNat < 2^31 := by
  obtain ⟨pend,out,inv⟩ := reachable_inv reached
  have stage : (s.pc p).stage = some (.wait,job) := by rw [at_]; rfl
  obtain ⟨on,-⟩ | ⟨-,absent,k,late,completed,passed⟩ := inv.queued.waits p job stage
  · rw [returns_off at_ moves returns] at on
    cases on
  rw [← sector_exact]
  constructor
  · rintro ⟨k,c,-,completed,-,buffer,-,-,own⟩
    rwa [inv.own c (List.mem_of_getElem? completed),buffer] at own
  · exact fun own => ⟨k,_,late,completed,passed,rfl,rfl,rfl,own⟩

/-- For every interleaving of virtio_disk_rw calls, completions by the device and
virtio_disk_intr calls. When a call for b returns the device has completed the
request for b's own block exactly if b->blockno * 2 fits into 32 bits. -/
theorem virtio_protocol (reached : (system P blockno).Reachable s) :
    Protocol blockno s ∧ ∀ p job s', s.pc p = .wait job → step blockno s (.run p) = some s' → s'.pc p = .idle →
      (Served blockno s job ↔ (blockno job.b).toNat < 2^31) := by
  obtain ⟨pend,out,inv⟩ := reachable_inv reached
  exact ⟨inv.protocol,fun p job s' => returns_served reached⟩

def oneRead : List (Label Unit Unit) :=
  [.acquiresleep () (),.rw () () false,.run (),.run (),.run (),.run (),.run (),.consume,.complete 0,.interrupt,
    .handle,.handle,.handle,.run ()]

def returns (blockno : B → BitVec 32) (s : State P B) (p : P) : Bool :=
  match s.pc p, (step blockno s (.run p)).map fun s' => s'.pc p with
  | .wait _, some Pc.idle => true
  | _, _ => false

theorem oneRead_returns {n : BitVec 32}
    (ran : (System.run (step fun _ : Unit => n) initial oneRead).any fun s => returns (fun _ => n) s ()) :
    ∃ s, (system Unit fun _ : Unit => n).Reachable s ∧
      ∃ job s', s.pc () = .wait job ∧ step (fun _ => n) s (.run ()) = some s' ∧ s'.pc () = .idle := by
  obtain ⟨s,ran,ends⟩ := (Option.any_eq_true _ _).mp ran
  refine ⟨s,System.Reachable.run (.start _ rfl) ran,?_⟩
  unfold returns at ends
  split at ends
  case h_1 job at_ idle =>
    obtain ⟨s',moves,idle⟩ := Option.map_eq_some_iff.mp idle
    exact ⟨job,s',at_,moves,idle⟩
  case h_2 => cases ends

/-- A read of block 5 returns served. -/
theorem virtio_protocol_read : ∃ s : State Unit Unit, (system Unit fun _ : Unit => 5).Reachable s ∧
    ∃ job s', s.pc () = .wait job ∧ step (fun _ => 5) s (.run ()) = some s' ∧ s'.pc () = .idle ∧
      Served (fun _ => 5) s job := by
  obtain ⟨s,reached,job,s',at_,moves,idle⟩ := oneRead_returns (n := 5) (by decide +kernel)
  exact ⟨s,reached,job,s',at_,moves,idle,((virtio_protocol reached).2 () job s' at_ moves idle).mpr (by decide)⟩

/-- A read of block 2^31 returns, and the device has read another block. -/
theorem sector_overflows : ∃ s : State Unit Unit, (system Unit fun _ : Unit => 0x80000000).Reachable s ∧
    ∃ job s', s.pc () = .wait job ∧ step (fun _ => 0x80000000) s (.run ()) = some s' ∧ s'.pc () = .idle ∧
      ¬Served (fun _ => 0x80000000) s job := by
  obtain ⟨s,reached,job,s',at_,moves,idle⟩ := oneRead_returns (n := 0x80000000) (by decide +kernel)
  refine ⟨s,reached,job,s',at_,moves,idle,fun served => ?_⟩
  exact absurd ((returns_served reached at_ moves idle).mp served) (by decide)

end Xv6.Virtio
