import Xv6.Itable.Shape

/-! Every step keeps the invariant of the inode table. -/
namespace Xv6.Itable
open Lib Lib.Count
open Function (update update_apply update_eq_self update_of_ne update_self)
open Fs (Attr Slot)

variable {n : Nat} {s s' : State n} {ip : Slot} {h : Fin n} {stage stage' : Stage} {inode : Inode n}

theorem Inv.unmarked (inv : Inv s) (on : s.place h = .on stage ip) (early : stage.late = false) (h' : Fin n) :
    s.place h' ≠ .marked (s.slot ip).key := by
  intro there
  have late := (inv.marked h' _ there).2.2 h stage ip on rfl
  rw [early] at late
  cases late

theorem Inv.born_on (inv : Inv s) (on : s.place h = .on stage ip) {type : BitVec 16} (born : s.born h = some type) :
    stage.uses = true ∧ s.given (s.slot ip).key = some type := by
  rcases inv.born h type born with ⟨key,place,_⟩ | ⟨stage',j,place,uses,gave⟩
  · rw [on] at place
    cases place
  · rw [on] at place
    cases place
    exact ⟨uses,gave⟩

theorem Inv.unborn (inv : Inv s) (off : ∀ j, (s.place h).isOn j = false) (unmarked : ∀ key, s.place h ≠ .marked key) :
    s.born h = none := by
  cases born : s.born h with
  | none => rfl
  | some type =>
    rcases inv.born h type born with ⟨key,place,_⟩ | ⟨stage,j,place,_⟩
    · exact absurd place (unmarked key)
    · have here := off j
      simp [place,Place.isOn] at here

theorem Inv.work (inv : Inv s) (touches : Touches s s' h ip) (apart : Apart s ip) (here : Local s' ip)
    (disk : s'.disk = s.disk) (given : s'.given = s.given)
    (quiet : (∀ h', s.place h' ≠ .marked (s.slot ip).key) ∨ ∀ stage, s'.place h = .on stage ip → stage.late = true)
    (born : ∀ type, s'.born h = some type → ∃ stage, s'.place h = .on stage ip ∧ stage.uses = true ∧
      s.given (s.slot ip).key = some type) : Inv s' := by
  refine inv.touch touches apart here ?_ ?_ ?_ ?_ ?_
  · rw [disk]
    exact inv.shown _
  · rw [disk,given]
    exact inv.given _
  · intro h' _ there
    rw [disk,given]
    rcases quiet with none | late
    · exact absurd there (none h')
    · exact ⟨(inv.marked h' _ there).2.1,rfl,late⟩
  · rw [given]
    exact born
  · intros
    rw [given]

def worked (s : State n) (h : Fin n) (ip : Slot) (inode : Inode n) (stage : Stage) : State n :=
  (s.setSlot ip inode).goto h (.on stage ip)

theorem count_worked (on : s.place h = .on stage ip) :
    count (Place.isOn ip) (update s.place h (.on stage' ip)) = count (Place.isOn ip) s.place := by
  have sum := count_update (Place.isOn ip) s.place h (.on stage' ip)
  simpa [on,Place.isOn] using sum

theorem worked_touches (on : s.place h = .on stage ip) (key : inode.key = (s.slot ip).key) :
    Touches s (worked s h ip inode stage') h ip := by
  constructor <;> simp_all [worked,State.setSlot,State.goto]

theorem Inv.worked (inv : Inv s) (on : s.place h = .on stage ip) (key : inode.key = (s.slot ip).key)
    (late : stage.late = false ∨ stage'.late = true) (uses : stage.uses = true → stage'.uses = true)
    (here : Local (worked s h ip inode stage') ip) : Inv (worked s h ip inode stage') := by
  have place : (Itable.worked s h ip inode stage').place h = .on stage' ip := update_self ..
  refine inv.work (worked_touches on key) (inv.apart ((inv.slots ip).used on)) here rfl rfl ?_ fun type born => ?_
  · rcases late with early | late
    · exact .inl (inv.unmarked on early)
    · refine .inr fun stage there => ?_
      rw [place] at there
      cases there
      exact late
  · obtain ⟨used,gave⟩ := inv.born_on on born
    exact ⟨stage',place,uses used,gave⟩

theorem ilock_inv (inv : Inv s) (on : s.place h = .on .held ip) (free : (s.slot ip).lock = none) :
    Inv (worked s h ip { s.slot ip with lock := some h } .loading) := by
  refine inv.worked on rfl (.inl rfl) (fun _ => rfl) ?_
  obtain ⟨refs,locked,lock,typed,agree,loaded,unloaded,alone,unlinked,live⟩ := inv.slots ip
  constructor
  all_goals simp only [worked,State.setSlot,State.goto,update_self,count_worked on,update_apply]
  case refs => exact refs
  all_goals grind [Stage.locks,Stage.late,Stage.loaded,Stage.frees]

theorem iunlock_inv (inv : Inv s) (on : s.place h = .on .locked ip) :
    Inv (worked s h ip { s.slot ip with lock := none } .held) := by
  refine inv.worked on rfl (.inl rfl) (fun _ => rfl) ?_
  obtain ⟨refs,locked,lock,typed,agree,loaded,unloaded,alone,unlinked,live⟩ := inv.slots ip
  constructor
  all_goals simp only [worked,State.setSlot,State.goto,update_self,count_worked on,update_apply]
  case refs => exact refs
  all_goals grind [Stage.locks,Stage.late,Stage.loaded,Stage.frees]

theorem loaded_inv (inv : Inv s) (on : s.place h = .on .loading ip) (valid : (s.slot ip).valid = true) :
    Inv (worked s h ip (s.slot ip) .locked) := by
  refine inv.worked on rfl (.inl rfl) (fun _ => rfl) ?_
  obtain ⟨refs,locked,lock,typed,agree,loaded,unloaded,alone,unlinked,live⟩ := inv.slots ip
  constructor
  all_goals simp only [worked,State.setSlot,State.goto,update_self,count_worked on,update_apply]
  case refs => exact refs
  all_goals grind [Stage.locks,Stage.late,Stage.loaded,Stage.frees]

theorem load_inv (inv : Inv s) (on : s.place h = .on .loading ip) :
    Inv (worked s h ip { s.slot ip with valid := true, attr := s.disk (s.slot ip).key } .locked) := by
  have shown := inv.shown (s.slot ip).key
  refine inv.worked on rfl (.inl rfl) (fun _ => rfl) ?_
  obtain ⟨refs,locked,lock,typed,agree,loaded,unloaded,alone,unlinked,live⟩ := inv.slots ip
  constructor
  all_goals simp only [worked,State.setSlot,State.goto,update_self,count_worked on,update_apply]
  case refs => exact refs
  all_goals grind [Stage.locks,Stage.late,Stage.loaded,Stage.frees]

theorem clear_inv (inv : Inv s) (on : s.place h = .on .clearing ip) :
    Inv (worked s h ip { s.slot ip with attr := { (s.slot ip).attr with type := 0 } } .writing) := by
  refine inv.worked on rfl (.inl rfl) nofun ?_
  obtain ⟨refs,locked,lock,typed,agree,loaded,unloaded,alone,unlinked,live⟩ := inv.slots ip
  constructor
  all_goals simp only [worked,State.setSlot,State.goto,update_self,count_worked on,update_apply]
  case refs => exact refs
  all_goals grind [Stage.locks,Stage.late,Stage.loaded,Stage.frees]

theorem invalidate_inv (inv : Inv s) (on : s.place h = .on .invalidating ip) :
    Inv (worked s h ip { s.slot ip with valid := false } .unlocking) := by
  refine inv.worked on rfl (.inr rfl) nofun ?_
  obtain ⟨refs,locked,lock,typed,agree,loaded,unloaded,alone,unlinked,live⟩ := inv.slots ip
  constructor
  all_goals simp only [worked,State.setSlot,State.goto,update_self,count_worked on,update_apply]
  case refs => exact refs
  all_goals grind [Stage.locks,Stage.late,Stage.loaded,Stage.frees]

theorem unlock_inv (inv : Inv s) (on : s.place h = .on .unlocking ip) :
    Inv (worked s h ip { s.slot ip with lock := none } .dropping) := by
  refine inv.worked on rfl (.inr rfl) nofun ?_
  obtain ⟨refs,locked,lock,typed,agree,loaded,unloaded,alone,unlinked,live⟩ := inv.slots ip
  constructor
  all_goals simp only [worked,State.setSlot,State.goto,update_self,count_worked on,update_apply]
  case refs => exact refs
  all_goals grind [Stage.locks,Stage.late,Stage.loaded,Stage.frees]

theorem assign_inv (inv : Inv s) (on : s.place h = .on .locked ip) {attr : Attr} (type : attr.type = (s.slot ip).attr.type)
    (linked : s.live (s.slot ip).key = true → attr.nlink ≠ 0) :
    Inv (worked s h ip { s.slot ip with attr := attr } .locked) := by
  have alone := @Local.holder n s ip h (inv.slots ip)
  refine inv.worked on rfl (.inl rfl) (fun _ => rfl) ?_
  obtain ⟨refs,locked,lock,typed,agree,loaded,unloaded,alone,unlinked,live⟩ := inv.slots ip
  constructor
  all_goals simp only [worked,State.setSlot,State.goto,update_self,count_worked on,update_apply]
  case refs => exact refs
  all_goals grind [Stage.locks,Stage.late,Stage.loaded,Stage.frees]

/-! Writing the inode. -/

def wrote (s : State n) (h : Fin n) (ip : Slot) (stage : Stage) : State n :=
  (s.setDisk (s.slot ip).key (s.slot ip).attr).goto h (.on stage ip)

theorem wrote_touches (on : s.place h = .on stage ip) : Touches s (wrote s h ip stage') h ip := by
  constructor <;> simp_all [wrote,State.setDisk,State.goto]

theorem Inv.wrote (inv : Inv s) (on : s.place h = .on stage ip) (early : stage.late = false)
    (uses : stage.uses = true → stage'.uses = true) (loaded : stage.loaded = true)
    (same : s.given (s.slot ip).key ≠ none → (s.slot ip).attr.type = (s.disk (s.slot ip).key).type)
    (shown : s.live (s.slot ip).key = true → (s.slot ip).attr.type ≠ 0)
    (here : Local (wrote s h ip stage') ip) : Inv (wrote s h ip stage') := by
  have used := (inv.slots ip).used on
  have disk : (Itable.wrote s h ip stage').disk (s.slot ip).key = (s.slot ip).attr := update_self ..
  have place : (Itable.wrote s h ip stage').place h = .on stage' ip := update_self ..
  refine inv.touch (wrote_touches on) (inv.apart used) here ?_ ?_ ?_ ?_ fun _ _ _ _ _ => rfl
  · intro live
    rw [disk]
    exact ⟨shown live,(inv.slots ip).live used ((inv.slots ip).loaded h stage on loaded) live⟩
  · intro type gave
    change s.given (s.slot ip).key = some type at gave
    rw [disk,same (by simp [gave])]
    exact inv.given _ type gave
  · intro h' _ there
    exact absurd there (inv.unmarked on early h')
  · intro type born
    obtain ⟨used,gave⟩ := inv.born_on on born
    exact ⟨stage',place,uses used,gave⟩

theorem iupdate_inv (inv : Inv s) (on : s.place h = .on .locked ip) : Inv (wrote s h ip .locked) := by
  have valid := (inv.slots ip).loaded h .locked on rfl
  obtain ⟨same,nonzero⟩ := (inv.slots ip).agrees on rfl nofun nofun valid
  refine inv.wrote on rfl (fun _ => rfl) rfl (fun _ => same) (fun _ => nonzero) ?_
  obtain ⟨refs,locked,lock,typed,agree,loaded,unloaded,alone,unlinked,live⟩ := inv.slots ip
  constructor
  all_goals simp only [wrote,State.setDisk,State.goto,update_self,count_worked on,update_apply]
  case refs => exact refs
  all_goals grind [Stage.locks,Stage.late,Stage.loaded,Stage.frees]

theorem truncate_inv (inv : Inv s) (on : s.place h = .on .truncating ip) : Inv (wrote s h ip .clearing) := by
  have valid := (inv.slots ip).loaded h .truncating on rfl
  obtain ⟨same,nonzero⟩ := (inv.slots ip).agrees on rfl nofun nofun valid
  refine inv.wrote on rfl nofun rfl (fun _ => same) (fun _ => nonzero) ?_
  obtain ⟨refs,locked,lock,typed,agree,loaded,unloaded,alone,unlinked,live⟩ := inv.slots ip
  constructor
  all_goals simp only [wrote,State.setDisk,State.goto,update_self,count_worked on,update_apply]
  case refs => exact refs
  all_goals grind [Stage.locks,Stage.late,Stage.loaded,Stage.frees]

theorem write_inv (inv : Inv s) (on : s.place h = .on .writing ip) : Inv (wrote s h ip .invalidating) := by
  have here := inv.slots ip
  have valid := here.loaded h .writing on rfl
  have dead : s.live (s.slot ip).key ≠ true := fun live =>
    here.live (here.used on) valid live (here.unlinked h .writing on (.inl rfl))
  have taken := (here.alone h .writing on rfl).2
  refine inv.wrote on rfl nofun rfl (fun some => absurd taken some) (fun live => absurd live dead) ?_
  obtain ⟨refs,locked,lock,typed,agree,loaded,unloaded,alone,unlinked,live⟩ := here
  constructor
  all_goals simp only [wrote,State.setDisk,State.goto,update_self,count_worked on,update_apply]
  case refs => exact refs
  all_goals grind [Stage.locks,Stage.late,Stage.loaded,Stage.frees]

/-! References that come and go. -/

theorem count_join (off : (s.place h).isOn ip = false) :
    (count (Place.isOn ip) (update s.place h (.on stage ip)) : Int) = count (Place.isOn ip) s.place + 1 := by
  have sum := count_update (Place.isOn ip) s.place h (.on stage ip)
  rw [off] at sum
  simp only [Place.isOn,decide_true,if_true,Bool.false_eq_true,if_false] at sum
  omega

theorem count_leave (on : s.place h = .on stage ip) :
    (count (Place.isOn ip) (update s.place h .idle) : Int) = count (Place.isOn ip) s.place - 1 := by
  have sum := count_update (Place.isOn ip) s.place h .idle
  simp only [on,Place.isOn,decide_true,if_true,Bool.false_eq_true,if_false] at sum
  omega

def left (s : State n) (h : Fin n) (ip : Slot) : State n :=
  (s.setSlot ip { s.slot ip with ref := (s.slot ip).ref - 1 }).goto h .idle

theorem left_inv (inv : Inv s) (on : s.place h = .on stage ip) (unlocked : stage.locks = false) :
    Inv ((left s h ip).forget h) := by
  have used := (inv.slots ip).used on
  have touches : Touches s ((left s h ip).forget h) h ip := by
    constructor <;> simp_all [left,State.setSlot,State.goto,State.forget]
  have place : ((left s h ip).forget h).place h = .idle := update_self ..
  refine inv.work touches (inv.apart used) ?_ rfl rfl (.inr fun stage there => ?_) fun type born => ?_
  · obtain ⟨refs,locked,lock,typed,agree,loaded,unloaded,alone,unlinked,live⟩ := inv.slots ip
    constructor
    all_goals simp only [left,State.forget,State.setSlot,State.goto,update_self,count_leave on,update_apply]
    case refs => rw [refs]
    all_goals grind [Stage.locks,Stage.late,Stage.loaded,Stage.frees]
  · rw [place] at there
    cases there
  · have none : ((left s h ip).forget h).born h = none := update_self ..
    rw [none] at born
    cases born

theorem forget_none (none : s.born h = none) : s.forget h = s := by
  rw [State.forget,← none,update_eq_self]

def entered (s : State n) (h : Fin n) (ip : Slot) : State n :=
  let s' := { s with given := update s.given (s.slot ip).key none }
  (worked s' h ip { s.slot ip with lock := some h } .truncating).forget h

theorem entered_inv (inv : Inv s) (on : s.place h = .on .held ip) (last : (s.slot ip).ref = 1)
    (valid : (s.slot ip).valid = true) (unlinked : (s.slot ip).attr.nlink = 0) (free : (s.slot ip).lock = none) :
    Inv (entered s h ip) := by
  have here := inv.slots ip
  have used := here.used on
  have only : ∀ h' stage', s.place h' = .on stage' ip → h' = h := by
    intro h' stage' on'
    have few : count (Place.isOn ip) s.place ≤ 1 := by
      have refs := here.refs
      omega
    exact eq_of_count_le_one few (Place.isOn_iff.mpr ⟨stage',on'⟩) (Place.isOn_iff.mpr ⟨.held,on⟩)
  have dead : s.live (s.slot ip).key ≠ true := fun live => here.live used valid live unlinked
  have touches : Touches s (entered s h ip) h ip := by
    constructor <;> simp_all [entered,worked,State.setSlot,State.goto,State.forget]
  have nothing : (entered s h ip).born h = none := update_self ..
  have taken : (entered s h ip).given (s.slot ip).key = none := update_self ..
  refine inv.touch touches (inv.apart used) ?_ (fun live => absurd live dead) (fun type gave => ?_) (fun h' _ there => ?_)
    (fun type born => ?_) fun h' stage other on' _ => absurd (only h' stage on') other
  · obtain ⟨refs,locked,lock,typed,agree,loaded,unloaded,alone,unlinked,live⟩ := here
    constructor
    all_goals simp only [entered,worked,State.forget,State.setSlot,State.goto,update_self,count_worked on,
      update_apply]
    case refs => exact refs
    all_goals grind [Stage.locks,Stage.late,Stage.loaded,Stage.frees]
  · rw [taken] at gave
    cases gave
  · exact absurd there (inv.unmarked on rfl h')
  · rw [nothing] at born
    cases born

def joined (s : State n) (h : Fin n) (ip : Slot) : State n :=
  (s.setSlot ip { s.slot ip with ref := (s.slot ip).ref + 1 }).goto h (.on .held ip)

theorem joined_inv (inv : Inv s) (off : ∀ j, (s.place h).isOn j = false) (apart : Apart s ip)
    (fresh : 0 < (s.slot ip).ref ∨ (s.slot ip).valid = false) (typed : (s.disk (s.slot ip).key).type ≠ 0)
    (quiet : ∀ h' stage, s.place h' = .on stage ip → stage.frees = false)
    (unmarked : ∀ h', h' ≠ h → s.place h' ≠ .marked (s.slot ip).key)
    (born : ∀ type, s.born h = some type → s.given (s.slot ip).key = some type) : Inv (joined s h ip) := by
  have place : (joined s h ip).place h = .on .held ip := update_self ..
  have touches : Touches s (joined s h ip) h ip := by
    constructor
    case was =>
      intro j stage on
      have here := off j
      simp [on,Place.isOn] at here
    all_goals simp_all [joined,State.setSlot,State.goto]
  refine inv.touch touches apart ?_ (inv.shown _) (inv.given _) (fun h' other there => absurd there (unmarked h' other))
    (fun type gave => ⟨.held,place,rfl,born type gave⟩) fun _ _ _ _ _ => rfl
  have new := off ip
  obtain ⟨refs,locked,lock,typed',agree,loaded,unloaded,alone,unlinked,live⟩ := inv.slots ip
  constructor
  all_goals simp only [joined,State.setSlot,State.goto,update_self,count_join new,update_apply]
  case refs => rw [refs]
  all_goals grind [Stage.locks,Stage.late,Stage.loaded,Stage.frees,Place.isOn]

theorem renamed_inv (inv : Inv s) (unused : (s.slot ip).ref = 0) (key : Key) (valid : Bool) :
    Inv (s.setSlot ip { s.slot ip with key := key, valid := valid }) := by
  have empty : ∀ h' stage, s.place h' ≠ .on stage ip := by
    intro h' stage on
    have used := (inv.slots ip).used on
    omega
  obtain ⟨slots,unique,shown,given,marked,claimed,scanning,born⟩ := inv
  have slot : ∀ j, j ≠ ip → (s.setSlot ip { s.slot ip with key := key, valid := valid }).slot j = s.slot j :=
    fun j other => update_of_ne other ..
  refine ⟨fun j => ?_,fun i j first second same => ?_,shown,given,fun h' k there => ?_,claimed,scanning,fun h' type there => ?_⟩
  · by_cases here : j = ip
    · subst here
      obtain ⟨refs,locked,lock,typed,agree,loaded,unloaded,alone,unlinked,live⟩ := slots j
      constructor
      all_goals simp only [State.setSlot,update_self]
      case refs => exact refs
      all_goals grind
    · obtain ⟨refs,locked,lock,typed,agree,loaded,unloaded,alone,unlinked,live⟩ := slots j
      constructor
      all_goals rw [slot j here]
      all_goals assumption
  · have other : ∀ k, 0 < ((s.setSlot ip { s.slot ip with key := key, valid := valid }).slot k).ref → k ≠ ip := by
      rintro k used rfl
      simp [State.setSlot,unused] at used
    have notI := other i first
    have notJ := other j second
    rw [slot i notI] at first same
    rw [slot j notJ] at second same
    exact unique i j first second same
  · obtain ⟨bornSome,noLinks,lates⟩ := marked h' k there
    refine ⟨bornSome,noLinks,fun h1 stage j on names => ?_⟩
    have other : j ≠ ip := by
      rintro rfl
      exact empty h1 stage on
    rw [slot j other] at names
    exact lates h1 stage j on names
  · rcases born h' type there with waiting | ⟨stage,j,on,uses,gave⟩
    · exact .inl waiting
    · have other : j ≠ ip := by
        rintro rfl
        exact empty h' stage on
      exact .inr ⟨stage,j,on,uses,by rw [slot j other]; exact gave⟩

theorem iget_inv {key : Key} (inv : Inv s) (off : ∀ j, (s.place h).isOn j = false) (typed : (s.disk key).type ≠ 0)
    (quiet : ∀ h' stage j, s.place h' = .on stage j → (s.slot j).key = key → stage.frees = false)
    (unmarked : ∀ h', h' ≠ h → s.place h' ≠ .marked key) (born : ∀ type, s.born h = some type → s.given key = some type)
    (got : s.iget h key = some s') : Inv s' := by
  unfold State.iget at got
  split at got
  next ip found =>
    cases got
    obtain ⟨used,rfl⟩ : 0 < (s.slot ip).ref ∧ (s.slot ip).key = key := by simpa using List.find?_some found
    exact joined_inv inv off (inv.apart used) (.inl used) typed (fun h' stage on => quiet h' stage ip on rfl) unmarked born
  next missing =>
    split at got
    next ip found =>
      cases got
      have unused : (s.slot ip).ref = 0 := by simpa using List.find?_some found
      have absent : ∀ j, 0 < (s.slot j).ref → (s.slot j).key ≠ key := by simpa [State.lookup] using missing
      have renamed := renamed_inv inv unused key false
      have here : (s.setSlot ip { s.slot ip with key := key, valid := false }).slot ip =
          { s.slot ip with key := key, valid := false } := update_self ..
      have apart : Apart (s.setSlot ip { s.slot ip with key := key, valid := false }) ip := by
        intro j other used
        have same : (s.setSlot ip { s.slot ip with key := key, valid := false }).slot j = s.slot j :=
          update_of_ne other ..
        rw [here]
        rw [same] at used ⊢
        exact absent j used
      have empty : ∀ h' stage, s.place h' = .on stage ip → stage.frees = false := by
        intro h' stage on
        have used := (inv.slots ip).used on
        omega
      have joins := joined_inv renamed off apart (.inr (by rw [here])) (by rw [here]; exact typed) empty
        (by rw [here]; exact unmarked) (by rw [here]; exact born)
      convert joins using 1
      simp [joined,State.setSlot,unused]
    next => cases got

/-! Steps outside the table. -/

theorem goto_inv {place : Place} (inv : Inv s) (off : ∀ j, (s.place h).isOn j = false) (born : s.born h = none)
    (next : place = .idle ∨ ∃ dev inum type, place = .scanning dev inum type ∧ type ≠ 0) : Inv (s.goto h place) := by
  have notOn : ∀ stage j, place ≠ .on stage j := by
    rcases next with rfl | ⟨_,_,_,rfl,_⟩ <;> nofun
  have notMarked : ∀ key, place ≠ .marked key := by
    rcases next with rfl | ⟨_,_,_,rfl,_⟩ <;> nofun
  have on : ∀ h' stage j, (s.goto h place).place h' = .on stage j ↔ s.place h' = .on stage j := by
    intro h' stage j
    by_cases me : h' = h
    · subst me
      have here := off j
      simp only [State.goto,update_self,notOn,false_iff]
      rintro there
      simp [there,Place.isOn] at here
    · simp [State.goto,me]
  have marks : ∀ h' key, (s.goto h place).place h' = .marked key → h' ≠ h ∧ s.place h' = .marked key := by
    intro h' key there
    by_cases me : h' = h
    · subst me
      simp only [State.goto,update_self] at there
      exact absurd there (notMarked key)
    · exact ⟨me,by simpa [State.goto,me] using there⟩
  refine ⟨fun j => ?_,inv.unique,inv.shown,inv.given,fun h' key there => ?_,fun h1 h2 key first second => ?_,
    fun h' dev inum type there => ?_,fun h' type there => ?_⟩
  · have same : count (Place.isOn j) (s.goto h place).place = count (Place.isOn j) s.place := by
      refine count_congr fun h' => ?_
      rw [Bool.eq_iff_iff,Place.isOn_iff,Place.isOn_iff]
      exact exists_congr fun stage => on h' stage j
    obtain ⟨refs,locked,lock,typed,agree,loaded,unloaded,alone,unlinked,live⟩ := inv.slots j
    constructor
    case live => exact live
    all_goals simp only [on,same]
    all_goals assumption
  · obtain ⟨_,there⟩ := marks h' key there
    simp only [on]
    exact inv.marked h' key there
  · exact inv.claimed h1 h2 key (marks h1 key first).2 (marks h2 key second).2
  · by_cases me : h' = h
    · subst me
      simp only [State.goto,update_self] at there
      rcases next with rfl | ⟨_,_,_,rfl,nonzero⟩
      · cases there
      · cases there
        exact nonzero
    · exact inv.scanning h' dev inum type (by simpa [State.goto,me] using there)
  · have other : h' ≠ h := by
      rintro rfl
      rw [show (s.goto h' place).born h' = s.born h' from rfl,born] at there
      cases there
    have same : (s.goto h place).place h' = s.place h' := update_of_ne other ..
    rw [same]
    exact inv.born h' type there

theorem mark_inv {dev inum : Nat} {type : BitVec 16} (inv : Inv s) (on : s.place h = .scanning dev inum type)
    (free : (s.disk (dev,inum)).type = 0) : Inv (s.mark h (dev,inum) type) := by
  generalize (dev,inum) = key at free
  have nonzero := inv.scanning h dev inum type on
  have places : ∀ h' stage j, (s.mark h key type).place h' = .on stage j ↔ s.place h' = .on stage j := by
    intro h' stage j
    by_cases me : h' = h
    · subst me
      simp [State.mark,State.goto,on]
    · simp [State.mark,State.goto,State.setDisk,me]
  have lates : ∀ h' stage j, s.place h' = .on stage j → (s.slot j).key = key → stage.late = true := by
    intro h' stage j there names
    by_contra early
    exact (inv.slots j).typed h' stage there (by simpa using early) (by rw [names]; exact free)
  have ungiven : ∀ type', s.given key ≠ some type' := by
    intro type' gave
    obtain ⟨same,nonzero'⟩ := inv.given key type' gave
    exact nonzero' (same ▸ free)
  have elsewhere : ∀ k type', s.given k = some type' → k ≠ key := by
    rintro k type' gave rfl
    exact ungiven type' gave
  have unmarked : ∀ h' k, s.place h' = .marked k → k ≠ key := by
    intro h' k there
    obtain ⟨⟨type',bornSome⟩,_⟩ := inv.marked h' k there
    rcases inv.born h' type' bornSome with ⟨k',place,gave⟩ | ⟨stage,j,place,_⟩
    · rw [there] at place
      cases place
      exact elsewhere k type' gave
    · rw [there] at place
      cases place
  have others : ∀ k, k ≠ key → (s.mark h key type).disk k = s.disk k ∧ (s.mark h key type).given k = s.given k :=
    fun k other => ⟨update_of_ne other ..,update_of_ne other ..⟩
  have disk : (s.mark h key type).disk key = ⟨type,0,0,0⟩ := update_self ..
  have gave : (s.mark h key type).given key = some type := update_self ..
  have born : ∀ h', h' ≠ h → (s.mark h key type).born h' = s.born h' := fun h' other => update_of_ne other ..
  have here : (s.mark h key type).place h = .marked key := update_self ..
  have away : ∀ h', h' ≠ h → (s.mark h key type).place h' = s.place h' := fun h' other => update_of_ne other ..
  refine ⟨fun j => ?_,inv.unique,fun k live => ?_,fun k type' there => ?_,fun h' k there => ?_,fun h1 h2 k first second => ?_,
    fun h' dev' inum' type' there => ?_,fun h' type' there => ?_⟩
  · have same : count (Place.isOn j) (s.mark h key type).place = count (Place.isOn j) s.place := by
      refine count_congr fun h' => ?_
      rw [Bool.eq_iff_iff,Place.isOn_iff,Place.isOn_iff]
      exact exists_congr fun stage => places h' stage j
    have slot : (s.mark h key type).slot j = s.slot j := rfl
    obtain ⟨refs,locked,lock,typed,agree,loaded,unloaded,alone,unlinked,live⟩ := inv.slots j
    by_cases names : (s.slot j).key = key
    · have late := fun h' stage there => lates h' stage j there names
      constructor
      case live => exact live
      all_goals simp only [places,same,slot,names,disk]
      case refs => exact refs
      all_goals grind [Stage.late,Stage.frees]
    · obtain ⟨sameDisk,sameGiven⟩ := others _ names
      constructor
      case live => exact live
      all_goals simp only [places,same,slot,sameDisk,sameGiven]
      all_goals assumption
  · have shown := inv.shown k live
    by_cases same : k = key
    · exact absurd free (same ▸ shown.1)
    · rw [(others k same).1]
      exact shown
  · by_cases same : k = key
    · rw [same,gave] at there
      cases there
      rw [same,disk]
      exact ⟨rfl,nonzero⟩
    · rw [(others k same).2] at there
      rw [(others k same).1]
      exact inv.given k type' there
  · by_cases me : h' = h
    · rw [me,here] at there
      cases there
      rw [me,disk]
      simp only [places]
      exact ⟨⟨type,update_self ..⟩,trivial,lates⟩
    · rw [away h' me] at there
      rw [born h' me,(others k (unmarked h' k there)).1]
      simp only [places]
      exact inv.marked h' k there
  · grind [inv.claimed]
  · grind [inv.scanning]
  · by_cases me : h' = h
    · rw [me] at there ⊢
      rw [show (s.mark h key type).born h = some type from update_self ..] at there
      cases there
      exact .inl ⟨key,here,gave⟩
    · rw [born h' me] at there
      rw [away h' me]
      rcases inv.born h' type' there with ⟨k,place,gave'⟩ | ⟨stage,j,place,uses,gave'⟩
      · exact .inl ⟨k,place,by rw [(others k (elsewhere k type' gave')).2]; exact gave'⟩
      · exact .inr ⟨stage,j,place,uses,by
          rw [show (s.mark h key type).slot j = s.slot j from rfl,(others _ (elsewhere _ type' gave')).2]; exact gave'⟩

theorem live_inv {live : Key → Bool} (inv : Inv s) (linked : ∀ key, live key = true → s.linked key) :
    Inv { s with live := live } := by
  obtain ⟨slots,unique,shown,given,marked,claimed,scanning,born⟩ := inv
  refine ⟨fun j => ?_,unique,fun key there => ?_,given,marked,claimed,scanning,born⟩
  · obtain ⟨refs,locked,lock,typed,agree,loaded,unloaded,alone,unlinked,live⟩ := slots j
    exact ⟨refs,locked,lock,typed,agree,loaded,unloaded,alone,unlinked,fun used valid there =>
      (linked _ there).2.2 j used rfl valid⟩
  · exact ⟨(linked key there).1,(linked key there).2.1⟩

theorem Inv.linked (inv : Inv s) {key : Key} (live : s.live key = true) : s.linked key := by
  refine ⟨(inv.shown key live).1,(inv.shown key live).2,fun j used names valid => ?_⟩
  exact (inv.slots j).live used valid (names ▸ live)

end Xv6.Itable
