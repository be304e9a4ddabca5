import Xv6.Itable.Model

/-! What holds of the inode table at every step. Most steps work on one slot that
is in use; what they do to the others follows from the uniqueness of slots. -/
namespace Xv6.Itable
open Lib Lib.Count
open Fs (Attr Slot)

namespace Stage

def locks (stage : Stage) : Bool := stage ≠ .held ∧ stage ≠ .dropping

def uses (stage : Stage) : Bool := stage = .held ∨ stage = .loading ∨ stage = .locked

def frees (stage : Stage) : Bool := stage = .truncating ∨ stage = .clearing ∨ stage = .writing

def late (stage : Stage) : Bool := stage = .invalidating ∨ stage = .unlocking ∨ stage = .dropping

def loaded (stage : Stage) : Bool := stage = .locked ∨ stage.frees = true ∨ stage = .invalidating

end Stage

def Place.isOn (ip : Slot) : Place → Bool
  | .on _ j => j = ip
  | _ => false

theorem Place.isOn_iff {ip : Slot} {place : Place} : place.isOn ip = true ↔ ∃ stage, place = .on stage ip := by
  cases place <;> simp [Place.isOn]

variable {n : Nat} {s s' : State n} {ip : Slot} {h : Fin n}

/-- A slot, its inode on disk and the handles that refer to it. -/
structure Local (s : State n) (ip : Slot) : Prop where
  refs : (s.slot ip).ref = count (Place.isOn ip) s.place
  locked : ∀ h, (s.slot ip).lock = some h → ∃ stage, s.place h = .on stage ip ∧ stage.locks = true
  lock : ∀ h stage, s.place h = .on stage ip → stage.locks = true → (s.slot ip).lock = some h
  typed : ∀ h stage, s.place h = .on stage ip → stage.late = false → (s.disk (s.slot ip).key).type ≠ 0
  agree : 0 < (s.slot ip).ref → (s.slot ip).valid = true →
    ((s.slot ip).attr.type = (s.disk (s.slot ip).key).type ∧ (s.slot ip).attr.type ≠ 0) ∨
      ∃ h, s.place h = .on .writing ip ∨ s.place h = .on .invalidating ip
  loaded : ∀ h stage, s.place h = .on stage ip → stage.loaded = true → (s.slot ip).valid = true
  unloaded : ∀ h, s.place h = .on .unlocking ip → (s.slot ip).valid = false
  alone : ∀ h stage, s.place h = .on stage ip → stage.frees = true →
    (∀ h' stage', s.place h' = .on stage' ip → h' = h) ∧ s.given (s.slot ip).key = none
  unlinked : ∀ h stage, s.place h = .on stage ip → stage.frees = true ∨ stage = .invalidating → (s.slot ip).attr.nlink = 0
  live : 0 < (s.slot ip).ref → (s.slot ip).valid = true → s.live (s.slot ip).key = true → (s.slot ip).attr.nlink ≠ 0

structure Inv (s : State n) : Prop where
  slots : ∀ ip, Local s ip
  unique : ∀ i j, 0 < (s.slot i).ref → 0 < (s.slot j).ref → (s.slot i).key = (s.slot j).key → i = j
  shown : ∀ key, s.live key = true → (s.disk key).type ≠ 0 ∧ (s.disk key).nlink ≠ 0
  given : ∀ key type, s.given key = some type → (s.disk key).type = type ∧ type ≠ 0
  marked : ∀ h key, s.place h = .marked key → (∃ type, s.born h = some type) ∧ (s.disk key).nlink = 0 ∧
    ∀ h' stage ip, s.place h' = .on stage ip → (s.slot ip).key = key → stage.late = true
  claimed : ∀ h h' key, s.place h = .marked key → s.place h' = .marked key → h = h'
  scanning : ∀ h dev inum type, s.place h = .scanning dev inum type → type ≠ 0
  born : ∀ h type, s.born h = some type → (∃ key, s.place h = .marked key ∧ s.given key = some type) ∨
    ∃ stage ip, s.place h = .on stage ip ∧ stage.uses = true ∧ s.given (s.slot ip).key = some type

namespace Local

theorem used (here : Local s ip) {stage : Stage} (on : s.place h = .on stage ip) : 0 < (s.slot ip).ref := by
  have some : 0 < count (Place.isOn ip) s.place := count_pos h (Place.isOn_iff.mpr ⟨stage,on⟩)
  rw [here.refs]
  exact_mod_cast some

theorem holder (here : Local s ip) {h' : Fin n} {stage stage' : Stage} (on : s.place h = .on stage ip)
    (locks : stage.locks = true) (on' : s.place h' = .on stage' ip) (locks' : stage'.locks = true) : h' = h := by
  have first := here.lock h stage on locks
  have second := here.lock h' stage' on' locks'
  rw [first] at second
  exact (Option.some.inj second).symm

theorem agrees (here : Local s ip) {stage : Stage} (on : s.place h = .on stage ip) (locks : stage.locks = true)
    (not_writing : stage ≠ .writing) (not_invalidating : stage ≠ .invalidating) (valid : (s.slot ip).valid = true) :
    (s.slot ip).attr.type = (s.disk (s.slot ip).key).type ∧ (s.slot ip).attr.type ≠ 0 := by
  rcases here.agree (here.used on) valid with same | ⟨h',writing | invalidating⟩
  · exact same
  · have me := here.holder on locks writing rfl
    subst me
    rw [on] at writing
    cases writing
    exact absurd rfl not_writing
  · have me := here.holder on locks invalidating rfl
    subst me
    rw [on] at invalidating
    cases invalidating
    exact absurd rfl not_invalidating

end Local

/-! Steps on one slot. -/

/-- A step of handle `h` on slot `ip`, which keeps its inode. -/
structure Touches (s s' : State n) (h : Fin n) (ip : Slot) : Prop where
  slots : ∀ j, j ≠ ip → s'.slot j = s.slot j
  key : (s'.slot ip).key = (s.slot ip).key
  places : ∀ h', h' ≠ h → s'.place h' = s.place h'
  was : ∀ j stage, s.place h = .on stage j → j = ip
  now : ∀ j stage, s'.place h = .on stage j → j = ip
  unmarked : ∀ key, s'.place h ≠ .marked key
  unscanned : ∀ dev inum type, s'.place h ≠ .scanning dev inum type
  live : s'.live = s.live
  disk : ∀ key, key ≠ (s.slot ip).key → s'.disk key = s.disk key
  given : ∀ key, key ≠ (s.slot ip).key → s'.given key = s.given key
  born : ∀ h', h' ≠ h → s'.born h' = s.born h'

def Apart (s : State n) (ip : Slot) : Prop := ∀ j, j ≠ ip → 0 < (s.slot j).ref → (s.slot j).key ≠ (s.slot ip).key

theorem Inv.apart (inv : Inv s) (used : 0 < (s.slot ip).ref) : Apart s ip :=
  fun j other busy same => other (inv.unique j ip busy used same)

namespace Touches

theorem elsewhere (touches : Touches s s' h ip) {j : Slot} (other : j ≠ ip) (h' : Fin n) (stage : Stage) :
    s'.place h' = .on stage j ↔ s.place h' = .on stage j := by
  by_cases me : h' = h
  · subst me
    exact ⟨fun on => absurd (touches.now j stage on) other,fun on => absurd (touches.was j stage on) other⟩
  · rw [touches.places h' me]

theorem outside (touches : Touches s s' h ip) (inv : Inv s) (apart : Apart s ip) {j : Slot} (other : j ≠ ip) :
    Local s' j := by
  have here := inv.slots j
  have on := fun h' stage => touches.elsewhere other h' stage
  have apart := apart j other
  have same : count (Place.isOn j) s'.place = count (Place.isOn j) s.place := by
    refine count_congr fun h' => ?_
    rw [Bool.eq_iff_iff,Place.isOn_iff,Place.isOn_iff]
    exact exists_congr fun stage => on h' stage
  have busy : ∀ {h' stage}, s.place h' = .on stage j → 0 < (s.slot j).ref := fun there => here.used there
  constructor
  all_goals simp only [touches.slots j other,on]
  · rw [same]
    exact here.refs
  · exact here.locked
  · exact here.lock
  · intro h' stage there early
    rw [touches.disk _ (apart (busy there))]
    exact here.typed h' stage there early
  · intro used valid
    rw [touches.disk _ (apart used)]
    exact here.agree used valid
  · exact here.loaded
  · exact here.unloaded
  · intro h' stage there frees
    rw [touches.given _ (apart (busy there))]
    exact here.alone h' stage there frees
  · exact here.unlinked
  · intro used valid live
    rw [touches.live] at live
    exact here.live used valid live

end Touches

theorem Inv.touch (inv : Inv s) (touches : Touches s s' h ip) (apart : Apart s ip) (here : Local s' ip)
    (shown : s.live (s.slot ip).key = true → (s'.disk (s.slot ip).key).type ≠ 0 ∧ (s'.disk (s.slot ip).key).nlink ≠ 0)
    (given : ∀ type, s'.given (s.slot ip).key = some type → (s'.disk (s.slot ip).key).type = type ∧ type ≠ 0)
    (marked : ∀ h', h' ≠ h → s.place h' = .marked (s.slot ip).key → (s'.disk (s.slot ip).key).nlink = 0 ∧
      s'.given (s.slot ip).key = s.given (s.slot ip).key ∧ ∀ stage, s'.place h = .on stage ip → stage.late = true)
    (born : ∀ type, s'.born h = some type → ∃ stage, s'.place h = .on stage ip ∧ stage.uses = true ∧
      s'.given (s.slot ip).key = some type)
    (others : ∀ h' stage, h' ≠ h → s.place h' = .on stage ip → stage.uses = true →
      s'.given (s.slot ip).key = s.given (s.slot ip).key) : Inv s' := by
  have keys : ∀ j, (s'.slot j).key = (s.slot j).key := by
    intro j
    by_cases same : j = ip
    · rw [same,touches.key]
    · rw [touches.slots j same]
  have notMe : ∀ h' key, s'.place h' = .marked key → h' ≠ h := by
    rintro h' key there rfl
    exact touches.unmarked key there
  refine ⟨fun j => ?_,fun i j first second same => ?_,fun key live => ?_,fun key type there => ?_,fun h' key there => ?_,
    fun h1 h2 key first second => ?_,fun h' dev inum type there => ?_,fun h' type there => ?_⟩
  · by_cases same : j = ip
    · rw [same]
      exact here
    · exact touches.outside inv apart same
  · grind [Apart,Inv,Local,Touches,Function.update_apply]
  · rw [touches.live] at live
    by_cases same : key = (s.slot ip).key
    · rw [same]
      exact shown (same ▸ live)
    · rw [touches.disk key same]
      exact inv.shown key live
  · by_cases same : key = (s.slot ip).key
    · rw [same]
      exact given type (same ▸ there)
    · rw [touches.given key same] at there
      rw [touches.disk key same]
      exact inv.given key type there
  · have other := notMe h' key there
    rw [touches.places h' other] at there
    obtain ⟨bornSome,noLinks,lates⟩ := inv.marked h' key there
    rw [touches.born h' other]
    by_cases same : key = (s.slot ip).key
    · grind [Apart,Inv,Local,Touches,Function.update_apply]
    · grind [Apart,Inv,Local,Touches,Function.update_apply]
  · grind [inv.claimed,touches.places]
  · grind [inv.scanning,touches.places,touches.unscanned]
  · by_cases me : h' = h
    · grind
    · have used : ∀ j stage, s.place h' = .on stage j → 0 < (s.slot j).ref := fun j stage => (inv.slots j).used
      unfold Apart at apart
      grind [inv.born,touches.born,touches.places,touches.given]

end Xv6.Itable
