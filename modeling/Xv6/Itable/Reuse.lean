import Xv6.Itable.Steps

/-! Slots are unique and are not recycled while they are in use, and an inode that
ialloc takes while its last user is still in iput keeps its new type. -/
namespace Xv6.Itable
open Lib Lib.Count
open Function (update update_of_ne update_self)
open Fs (Attr Slot)

variable {n ninodes : Nat} {s s' : State n} {h : Fin n}

theorem next_inv (inv : Inv s) (went : s.next ninodes h = some s') : Inv s' := by
  unfold State.next at went
  split at went
  next => cases went
  next => cases went
  next => cases went
  next dev inum type at_ =>
    have off : ∀ j, (s.place h).isOn j = false := fun j => by rw [at_]; rfl
    have unborn := inv.unborn off fun key => by rw [at_]; nofun
    split_ifs at went with inside free
    · cases went
      exact mark_inv inv at_ free
    · cases went
      exact goto_inv inv off unborn (.inr ⟨_,_,_,rfl,inv.scanning h dev inum type at_⟩)
    · cases went
      exact goto_inv inv off unborn (.inl rfl)
  next key at_ =>
    obtain ⟨⟨type,born⟩,_,lates⟩ := inv.marked h key at_
    have gave : s.given key = some type := by
      rcases inv.born h type born with ⟨key',place,gave⟩ | ⟨stage,j,place,_⟩ <;> rw [at_] at place <;> cases place
      exact gave
    obtain ⟨same,nonzero⟩ := inv.given key type gave
    refine iget_inv inv (fun j => by rw [at_]; rfl) (same ▸ nonzero) (fun h' stage j on names => ?_)
      (fun h' other there => other (inv.claimed h' h key there at_)) (fun type' born' => ?_) went
    · have late := lates h' stage j on names
      revert late
      cases stage <;> decide
    · rw [born] at born'
      cases born'
      exact gave
  next ip at_ =>
    dsimp only at went
    split_ifs at went with valid none
    · cases went
      have inv' := loaded_inv inv at_ valid
      convert inv' using 1
      simp [worked,State.setSlot]
    · cases went
      exact load_inv inv at_
  next ip at_ =>
    cases went
    exact truncate_inv inv at_
  next ip at_ =>
    cases went
    exact clear_inv inv at_
  next ip at_ =>
    cases went
    exact write_inv inv at_
  next ip at_ =>
    cases went
    exact invalidate_inv inv at_
  next ip at_ =>
    cases went
    exact unlock_inv inv at_
  next ip at_ =>
    cases went
    have unborn : s.born h = none := by
      cases born : s.born h with
      | none => rfl
      | some type => exact absurd (inv.born_on at_ born).1 Bool.false_ne_true
    have inv' := left_inv inv at_ rfl
    rwa [forget_none (show (left s h ip).born h = none from unborn)] at inv'

theorem step_inv {move : Move n} (inv : Inv s) (went : step ninodes s move = some s') : Inv s' := by
  cases move with
  | iget h key =>
    simp only [step] at went
    split_ifs at went with ready
    have off : ∀ j, (s.place h).isOn j = false := fun j => by rw [ready.1]; rfl
    have linked := inv.linked ready.2
    refine iget_inv inv off linked.1 (fun h' stage j on names => ?_) (fun h' _ there => ?_) (fun type born => ?_) went
    · cases frees : stage.frees with
      | false => rfl
      | true =>
        have here := inv.slots j
        have loaded := here.loaded h' stage on (by simp [Stage.loaded,frees])
        exact absurd (here.unlinked h' stage on (.inl frees)) (linked.2.2 j (here.used on) names loaded)
    · exact linked.2.1 (inv.marked h' key there).2.1
    · rw [inv.unborn off fun key => by rw [ready.1]; rintro ⟨⟩] at born
      cases born
  | idup h h' =>
    simp only [step] at went
    split at went
    next stage ip on idle =>
      split_ifs at went with uses
      cases went
      have early : stage.late = false ∧ stage.frees = false := by
        rcases uses with rfl | rfl | rfl <;> decide
      have here := inv.slots ip
      have off : ∀ j, (s.place h').isOn j = false := fun j => by rw [idle]; rfl
      refine joined_inv inv off (inv.apart (here.used on)) (.inl (here.used on)) (here.typed h stage on early.1)
        (fun h1 stage1 on1 => ?_) (fun h1 _ => inv.unmarked on early.1 h1) (fun type born => ?_)
      · cases frees : stage1.frees with
        | false => rfl
        | true =>
          cases (here.alone h1 stage1 on1 frees).1 h stage on
          rw [on] at on1
          cases on1
          rw [early.2] at frees
          cases frees
      · rw [inv.unborn off fun key => by rw [idle]; rintro ⟨⟩] at born
        cases born
    next => cases went
  | ilock h =>
    simp only [step] at went
    split at went
    next ip on =>
      split_ifs at went with bad
      cases went
      obtain ⟨-,free⟩ := not_or.mp bad
      exact ilock_inv inv on (by simpa using free)
    next => cases went
  | iunlock h =>
    simp only [step] at went
    split at went
    next ip on =>
      split_ifs at went
      cases went
      exact iunlock_inv inv on
    next => cases went
  | iput h =>
    simp only [step] at went
    split at went
    next ip on =>
      unfold State.iput at went
      dsimp only at went
      split_ifs at went with frees busy
      · cases went
        exact entered_inv inv on frees.1 frees.2.1 frees.2.2 (by simpa using busy)
      · cases went
        exact left_inv inv on rfl
    next => cases went
  | ialloc h dev type =>
    simp only [step] at went
    split_ifs at went with ready
    cases went
    have off : ∀ j, (s.place h).isOn j = false := fun j => by rw [ready.1]; rfl
    exact goto_inv inv off (inv.unborn off fun key => by rw [ready.1]; rintro ⟨⟩) (.inr ⟨_,_,_,rfl,ready.2⟩)
  | next h => exact next_inv inv went
  | assign h attr =>
    simp only [step] at went
    split at went
    next ip on =>
      split_ifs at went with kept
      cases went
      have inv' := assign_inv inv on kept.1 kept.2
      convert inv' using 1
      simp [worked,State.goto,State.setSlot,← on]
    next => cases went
  | iupdate h =>
    simp only [step] at went
    split at went
    next ip on =>
      cases went
      have inv' := iupdate_inv inv on
      convert inv' using 1
      simp [wrote,State.goto,State.setDisk,← on]
    next => cases went
  | enter key => grind [inv.linked,step,live_inv,Function.update_apply]
  | remove key => grind [inv.linked,step,live_inv,Function.update_apply]

theorem initial_inv (start : Initial s) : Inv s := by
  obtain ⟨unused,idle,live,given,born⟩ := start
  refine ⟨fun ip => ?_,fun i j used => ?_,live,fun key type gave => ?_,?_,?_,?_,fun h type there => ?_⟩
  · have none : count (Place.isOn ip) s.place = 0 := count_eq_zero.mpr fun h => by rw [idle]; rfl
    constructor
    all_goals simp [idle,unused ip,none]
  · rw [(unused i).1] at used
    exact absurd used (lt_irrefl 0)
  · rw [given] at gave
    cases gave
  · simp [idle]
  · simp [idle]
  · simp [idle]
  · rw [born] at there
    cases there

theorem reachable_inv (reached : (table n ninodes).Reachable s) : Inv s := by
  refine System.Reachable.invariant (fun _ => initial_inv) (fun s move s' _ inv went => ?_) reached
  change step ninodes s move = some s' at went
  exact step_inv inv went

/-! No slot in use is recycled. -/

theorem update_key (slot : Slot → Inode n) {ip : Slot} {inode : Inode n} (key : inode.key = (slot ip).key) (j : Slot) :
    (update slot ip inode j).key = (slot j).key := by
  by_cases same : j = ip
  · rw [same,update_self,key]
  · rw [update_of_ne same]

theorem iget_key {key : Key} (got : s.iget h key = some s') {ip : Slot} (used : 0 < (s.slot ip).ref) :
    (s'.slot ip).key = (s.slot ip).key := by
  unfold State.iget at got
  split at got
  next j found =>
    cases got
    exact update_key s.slot (by rfl) ip
  next =>
    split at got
    next j found =>
      cases got
      have unused : (s.slot j).ref = 0 := by simpa using List.find?_some found
      have other : ip ≠ j := by
        rintro rfl
        omega
      exact congrArg Inode.key (update_of_ne other ..)
    next => cases got

theorem next_key (went : s.next ninodes h = some s') {ip : Slot} (used : 0 < (s.slot ip).ref) :
    (s'.slot ip).key = (s.slot ip).key := by
  unfold State.next at went
  split at went
  next => cases went
  next => cases went
  next => cases went
  next dev inum type at_ =>
    split_ifs at went <;> cases went <;> rfl
  next key at_ => exact iget_key went used
  next j at_ =>
    dsimp only at went
    split_ifs at went
    · cases went
      rfl
    · cases went
      exact update_key s.slot (by rfl) ip
  all_goals
    cases went
    first | rfl | exact update_key s.slot (by rfl) ip

theorem key_kept {move : Move n} (went : step ninodes s move = some s') {ip : Slot} (used : 0 < (s.slot ip).ref) :
    (s'.slot ip).key = (s.slot ip).key := by
  cases move with
  | iget h key =>
    simp only [step] at went
    split_ifs at went
    exact iget_key went used
  | next h => exact next_key went used
  | iput h =>
    simp only [step] at went
    split at went
    next j on =>
      unfold State.iput at went
      dsimp only at went
      split_ifs at went <;> cases went <;> exact update_key s.slot (by rfl) ip
    next => cases went
  | _ =>
    simp only [step] at went
    repeat' split at went
    all_goals cases went
    all_goals first | rfl | exact update_key s.slot (by rfl) ip

/-- At most one slot in use has a given inode, no slot in use is recycled, and what
ialloc gave keeps its type: an inode that nobody has begun to free has it on
disk, and the handle that ialloc filled reads it with ilock. -/
theorem itable_keeps_inodes (reached : (table n ninodes).Reachable s) :
    (∀ i j, 0 < (s.slot i).ref → 0 < (s.slot j).ref → (s.slot i).key = (s.slot j).key → i = j) ∧
      (∀ move s', step ninodes s move = some s' → ∀ ip, 0 < (s.slot ip).ref → (s'.slot ip).key = (s.slot ip).key) ∧
      (∀ key type, s.given key = some type → (s.disk key).type = type) ∧
      ∀ h type stage ip, s.born h = some type → s.place h = .on stage ip → (s.disk (s.slot ip).key).type = type ∧
        (stage = .locked → (s.slot ip).valid = true ∧ (s.slot ip).attr.type = type) := by
  have inv := reachable_inv reached
  refine ⟨inv.unique,fun move s' went ip used => key_kept went used,fun key type gave => (inv.given key type gave).1,?_⟩
  intro h type stage ip born on
  have disk := (inv.given _ type (inv.born_on on born).2).1
  refine ⟨disk,?_⟩
  rintro rfl
  have here := inv.slots ip
  have valid := here.loaded h .locked on rfl
  have same := (here.agrees on rfl nofun nofun valid).1
  exact ⟨valid,same.trans disk⟩

def blank : State 2 where
  slot _ := ⟨(0,0),0,false,none,⟨0,0,0,0⟩⟩
  disk _ := ⟨0,0,0,0⟩
  live _ := false
  place _ := .idle
  given _ := none
  born _ := none

def firstSlot : Slot := ⟨0,ninode_pos⟩

def reuse : List (Move 2) :=
  [.ialloc 0 1 2,.next 0,.next 0,.ilock 0,.next 0,.iunlock 0,.iput 0,.next 0,.next 0,.next 0,
    .ialloc 1 1 1,.next 1,.next 1,.next 0,.next 0,.ilock 1,.next 1]

theorem itable_keeps_inodes_reuse : ∃ s, (table 2 2).Reachable s ∧ s.place 0 = .on .dropping firstSlot ∧ s.place 1 = .on .locked firstSlot ∧
    s.born 1 = some 1 ∧ (s.slot firstSlot).ref = 2 ∧ (s.slot firstSlot).attr.type = 1 := by
  have checked : ((System.run (step 2) blank reuse).any fun s => decide (s.place 0 = .on .dropping firstSlot ∧
      s.place 1 = .on .locked firstSlot ∧ s.born 1 = some 1 ∧ (s.slot firstSlot).ref = 2)) = true := by
    decide +kernel
  obtain ⟨s,ran,holds⟩ := (Option.any_eq_true _ _).mp checked
  obtain ⟨dropping,locked,born,two⟩ := of_decide_eq_true holds
  have start : (table 2 2).Reachable blank :=
    .start blank ⟨fun _ => ⟨rfl,rfl⟩,fun _ => rfl,fun _ => nofun,fun _ => rfl,fun _ => rfl⟩
  have reached : (table 2 2).Reachable s := start.run ran
  exact ⟨s,reached,dropping,locked,born,two,((itable_keeps_inodes reached).2.2.2 1 1 .locked firstSlot born locked).2 rfl |>.2⟩

end Xv6.Itable
