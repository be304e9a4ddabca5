import Xv6.Grep.Regex
import Xv6.Ulib.Strings

/-! grep of user/grep.c over a stream. Its buffer has 1024 bytes, the last one for a NUL:
a line that does not fit in with its newline fills it up, the next read has no room, and
the program takes this for the end of the stream. -/
namespace Xv6.Grep
open Ulib Function List

def bufsize : Nat := 1024

def newline : Byte := 0x0A

/-- The number of bytes that a read of at most n returns, where k says how the stream is
split: any number from 1 on, and 0 only if nothing is left or n is 0. -/
def pieceSize (k n left : Nat) : Nat := min (max 1 k) (min n left)

def scan (pattern : List Byte) : (turns : Nat) → (mem : Memory) → (p : Addr) → Option (Memory × Addr × List Byte)
  | 0, _, _ => none
  | turns + 1, mem, p =>
    match strchr mem newline bufsize p with
    | none => none
    | some none => some (mem,p,[])
    | some (some q) =>
      let mem := update mem q 0
      match string mem bufsize p with
      | none => none
      | some text =>
        match match_ (pattern.length + text.length + 1) pattern text with
        | none => none
        | some matched =>
          let mem := if matched then update mem q newline else mem
          let out := if matched then load mem p (q + 1 - p).toNat else []
          (scan pattern turns mem (q + 1)).map fun (mem,p,rest) => (mem,p,out ++ rest)

def grepFrom (buf : Addr) (pattern : List Byte) (pieces : Nat → Nat) : (turns k : Nat) → (input : List Byte) → Memory → (m : Nat) → Option (List Byte)
  | 0, _, _, _, _ => none
  | turns + 1, k, input, mem, m =>
    let n := pieceSize (pieces k) (bufsize - m - 1) input.length
    if n > 0 then
      let mem := store mem (buf + BitVec.ofNat 64 m) (input.take n)
      let m := m + n
      let mem := update mem (buf + BitVec.ofNat 64 m) 0
      match scan pattern bufsize mem buf with
      | none => none
      | some (mem,p,out) =>
        let (m,mem) := if m > 0 then
            let m := m - (p - buf).toNat
            (m,(memmove mem buf p (BitVec.ofNat 32 m)).2)
          else (m,mem)
        (grepFrom buf pattern pieces turns (k + 1) (input.drop n) mem m).map (out ++ ·)
    else some []

/-- What grep(pattern, fd) writes, where the reads split the stream into pieces of these
sizes. -/
def grep (buf : Addr) (turns : Nat) (pattern : List Byte) (pieces : Nat → Nat) (stream : List Byte) (mem : Memory) : Option (List Byte) :=
  grepFrom buf pattern pieces turns 0 stream mem 0

/-! Lines. -/

def join (lines : List (List Byte)) : List Byte := lines.flatMap (· ++ [newline])

@[simp] theorem join_nil : join [] = [] := rfl

@[simp] theorem join_cons (line : List Byte) (lines : List (List Byte)) : join (line :: lines) = line ++ newline :: join lines := by
  rw [join,flatMap_cons,append_assoc]
  rfl

@[simp] theorem join_append (first second : List (List Byte)) : join (first ++ second) = join first ++ join second := flatMap_append

theorem join_eq_nil {lines : List (List Byte)} : join lines = [] ↔ lines = [] := by
  cases lines with
  | nil => exact iff_of_true rfl rfl
  | cons line lines => simp

/-- A text is made of lines and of a rest that has no newline. -/
structure Lines (text : List Byte) (lines : List (List Byte)) (rest : List Byte) : Prop where
  text : text = join lines ++ rest
  lines : ∀ line ∈ lines, newline ∉ line
  rest : newline ∉ rest

theorem exists_lines (text : List Byte) : ∃ lines rest, Lines text lines rest := by
  induction text with
  | nil => exact ⟨[],[],rfl,nofun,nofun⟩
  | cons c text ih =>
    obtain ⟨lines,rest,rfl,plain,last⟩ := ih
    by_cases ends : c = newline
    · exact ⟨[] :: lines,rest,by rw [ends,join_cons]; rfl,forall_mem_cons.mpr ⟨nofun,plain⟩,last⟩
    have other : ¬newline = c := fun same => ends same.symm
    cases lines with
    | nil =>
      refine ⟨[],c :: rest,rfl,nofun,?_⟩
      rw [mem_cons,not_or]
      exact ⟨other,last⟩
    | cons line lines =>
      obtain ⟨first,later⟩ := forall_mem_cons.mp plain
      refine ⟨(c :: line) :: lines,rest,by rw [join_cons,join_cons]; rfl,forall_mem_cons.mpr ⟨?_,later⟩,last⟩
      rw [mem_cons,not_or]
      exact ⟨other,first⟩

theorem append_newline_inj {a b x y : List Byte} (first : newline ∉ a) (second : newline ∉ b)
    (same : a ++ newline :: x = b ++ newline :: y) : a = b ∧ x = y := by
  induction a generalizing b with
  | nil =>
    cases b with
    | nil => exact ⟨rfl,(cons.inj same).2⟩
    | cons c b => exact absurd mem_cons_self ((cons.inj same).1 ▸ second)
  | cons c a ih =>
    cases b with
    | nil => exact absurd mem_cons_self ((cons.inj same).1.symm ▸ first)
    | cons d b =>
      rw [mem_cons,not_or] at first second
      obtain ⟨rfl,tails⟩ := cons.inj same
      obtain ⟨rfl,rest⟩ := ih first.2 second.2 tails
      exact ⟨rfl,rest⟩

theorem Lines.after {first lines : List (List Byte)} {more rest : List Byte} (all : Lines (join first ++ more) lines rest)
    (plain : ∀ line ∈ first, newline ∉ line) : ∃ later, lines = first ++ later ∧ Lines more later rest := by
  induction first generalizing lines with
  | nil => exact ⟨lines,rfl,all⟩
  | cons line first ih =>
    obtain ⟨text,each,last⟩ := all
    obtain ⟨mine,others⟩ := forall_mem_cons.mp plain
    rw [join_cons,append_assoc,cons_append] at text
    cases lines with
    | nil =>
      refine absurd (?_ : newline ∈ rest) last
      rw [join_nil,nil_append] at text
      rw [← text]
      exact mem_append_right _ mem_cons_self
    | cons line' lines =>
      obtain ⟨mine',others'⟩ := forall_mem_cons.mp each
      rw [join_cons,append_assoc,cons_append] at text
      obtain ⟨rfl,same⟩ := append_newline_inj mine mine' text
      obtain ⟨later,rfl,lines⟩ := ih ⟨same,others',last⟩ others
      exact ⟨later,rfl,lines⟩

/-! The inner loop. -/

variable {buf p : Addr} {pattern : List Byte} {mem : Memory} {lines : List (List Byte)} {rest : List Byte}

def matching (pattern : List Byte) (lines : List (List Byte)) : List (List Byte) := lines.filter fun line => decide (Finds pattern line)

theorem matching_cons (pattern line : List Byte) (lines : List (List Byte)) : matching pattern (line :: lines) =
    if Finds pattern line then line :: matching pattern lines else matching pattern lines := by
  rw [matching,filter_cons]
  simp only [decide_eq_true_iff]
  rfl

theorem matching_append (pattern : List Byte) (first second : List (List Byte)) :
    matching pattern (first ++ second) = matching pattern first ++ matching pattern second := filter_append ..

theorem scan_lines {turns : Nat} (holds : Holds mem p (join lines ++ rest ++ [0])) (short : (join lines ++ rest).length < bufsize)
    (plain : 0 ∉ join lines ++ rest) (each : ∀ line ∈ lines, newline ∉ line) (last : newline ∉ rest) (enough : lines.length < turns) :
    ∃ mem', scan pattern turns mem p = some (mem',p + BitVec.ofNat 64 (join lines).length,join (matching pattern lines)) ∧
      Holds mem' (p + BitVec.ofNat 64 (join lines).length) rest := by
  induction lines generalizing turns mem p with
  | nil =>
    obtain ⟨turns,rfl⟩ := Nat.exists_eq_succ_of_ne_zero (Nat.ne_of_gt enough)
    rw [join_nil,nil_append] at holds short plain
    rw [scan,strchr_fails holds plain last short,join_nil,length_nil,add_zero]
    exact ⟨mem,rfl,(holds_append.mp holds).1⟩
  | cons line lines ih =>
    obtain ⟨turns,rfl⟩ := Nat.exists_eq_succ_of_ne_zero (Nat.ne_of_gt (Nat.lt_of_le_of_lt (Nat.zero_le _) enough))
    obtain ⟨mine,others⟩ := forall_mem_cons.mp each
    have size : bufsize = 1024 := rfl
    rw [join_cons,append_assoc,append_assoc,cons_append] at holds
    rw [join_cons,append_assoc,cons_append,length_append,length_cons] at short
    rw [join_cons,append_assoc,cons_append,mem_append,not_or,mem_cons,not_or] at plain
    obtain ⟨ours,-,later⟩ := plain
    obtain ⟨first,there,after⟩ := holds_append.mp holds
    -- the newline becomes a NUL
    have terminated : Holds (update mem (p + BitVec.ofNat 64 line.length) 0) p (line ++ [0]) :=
      holds_append.mpr ⟨first.update_after (Nat.le_refl _) (by omega) 0,update_self ..,trivial⟩
    rw [scan,strchr_finds holds (by decide) ours mine (by omega)]
    dsimp only
    rw [string_eq terminated ours (by omega)]
    dsimp only
    rw [match_eq (Nat.lt_succ_self _)]
    dsimp only
    have next : p + BitVec.ofNat 64 line.length + 1 = p + BitVec.ofNat 64 (line.length + 1) := by
      rw [BitVec.add_assoc,BitVec.ofNat_add]
      rfl
    have distance : (p + BitVec.ofNat 64 line.length + 1 - p).toNat = (line ++ [newline]).length := by
      rw [next,add_sub_cancel_left,BitVec.toNat_ofNat,length_append,length_singleton,Nat.mod_eq_of_lt (by omega)]
    have end_ : p + BitVec.ofNat 64 line.length + 1 + BitVec.ofNat 64 (join lines).length = p + BitVec.ofNat 64 (join (line :: lines)).length := by
      rw [next,BitVec.add_assoc,← BitVec.ofNat_add,join_cons,length_append,length_cons]
      congr 2
      omega
    rw [append_assoc] at ih
    have after' := after.update_before (by simp only [length_append,length_singleton] at short ⊢; omega) 0
    by_cases found : Finds pattern line
    · have after'' := after'.update_before (by simp only [length_append,length_singleton] at short ⊢; omega) newline
      obtain ⟨mem',ran,holds'⟩ := ih after'' (by omega) later others (Nat.lt_of_succ_lt_succ enough)
      refine ⟨mem',?_,by rw [← end_]; exact holds'⟩
      have written : Holds (update (update mem (p + BitVec.ofNat 64 line.length) 0) (p + BitVec.ofNat 64 line.length) newline) p
          (line ++ [newline]) :=
        holds_append.mpr ⟨(first.update_after (Nat.le_refl _) (by omega) 0).update_after (Nat.le_refl _) (by omega) newline,
          update_self ..,trivial⟩
      rw [decide_eq_true found,if_pos rfl,if_pos rfl,ran,distance,load_eq written,Option.map_some,end_,matching_cons,if_pos found,
        join_cons line (matching pattern lines),append_assoc]
      rfl
    · obtain ⟨mem',ran,holds'⟩ := ih after' (by omega) later others (Nat.lt_of_succ_lt_succ enough)
      refine ⟨mem',?_,by rw [← end_]; exact holds'⟩
      rw [decide_eq_false found,if_neg Bool.false_ne_true,if_neg Bool.false_ne_true,ran,Option.map_some,end_,matching_cons,if_neg found]
      rfl

/-! The outer loop. -/

def Fitting (line : List Byte) : Prop := line.length + 2 ≤ bufsize

instance (line : List Byte) : Decidable (Fitting line) := inferInstanceAs (Decidable (_ ≤ _))

def before (lines : List (List Byte)) : List (List Byte) := lines.takeWhile fun line => decide (Fitting line)

theorem length_le_join {line : List Byte} (member : line ∈ lines) : line.length + 1 ≤ (join lines).length := by
  obtain ⟨first,later,rfl⟩ := append_of_mem member
  simp only [join_append,join_cons,length_append,length_cons]
  omega

theorem length_lines_le_join (lines : List (List Byte)) : lines.length ≤ (join lines).length := by
  induction lines with
  | nil => exact Nat.le_refl 0
  | cons line lines ih =>
    simp only [join_cons,length_append,length_cons]
    omega

theorem length_le_of_append {a b x y : List Byte} (first : newline ∉ a) (same : a ++ x = b ++ newline :: y) : a.length ≤ b.length := by
  by_contra longer
  have less : b.length < a.length := Nat.not_le.mp longer
  have there := congrArg (·[b.length]?) same
  simp only [getElem?_append_left less,getElem?_append_right (Nat.le_refl b.length),Nat.sub_self,getElem?_cons_zero] at there
  exact first (mem_of_getElem? there)

/-- The loop writes the lines that match and come before the first line which does not
fit, from any state where the buffer has the beginning of a line. -/
theorem grepFrom_writes (pattern : List Byte) (pieces : Nat → Nat) {turns : Nat} (k : Nat) {input pending : List Byte} {mem : Memory}
    (placed : buf.toNat + bufsize ≤ 2^64) (holds : Holds mem buf pending) (room : pending.length < bufsize) (first : newline ∉ pending)
    (plain : 0 ∉ pending ++ input) (all : Lines (pending ++ input) lines rest) (enough : input.length < turns) :
    grepFrom buf pattern pieces turns k input mem pending.length = some (join (matching pattern (before lines))) := by
  induction turns generalizing k input pending mem lines with
  | zero => exact absurd enough (Nat.not_lt_zero _)
  | succ turns ih =>
    have size : bufsize = 1024 := rfl
    rw [grepFrom]
    dsimp only
    generalize count : pieceSize (pieces k) (bufsize - pending.length - 1) input.length = n
    have bound : n ≤ bufsize - pending.length - 1 ∧ n ≤ input.length ∧ (n = 0 → bufsize - pending.length - 1 = 0 ∨ input.length = 0) := by
      rw [← count]
      unfold pieceSize
      omega
    obtain ⟨fits,left,ends⟩ := bound
    by_cases more : n > 0
    swap
    · -- nothing is left, or the buffer is full with the beginning of the first line
      rw [if_neg more]
      have none : before lines = [] := by
        cases lines with
        | nil => rfl
        | cons line later =>
          have text := all.text
          rw [join_cons,append_assoc,cons_append] at text
          have covers := length_le_of_append first text
          have total := congrArg length text
          rw [length_append,length_append,length_cons] at total
          refine takeWhile_cons_of_neg ?_
          rw [decide_eq_true_iff,Fitting]
          have stops := ends (by omega)
          omega
      rw [none]
      rfl
    rw [if_pos more]
    obtain ⟨lines1,rest1,text,each,last⟩ := exists_lines (pending ++ input.take n)
    have length : (join lines1).length + rest1.length = pending.length + n := by
      have total := congrArg length text
      rw [length_append,length_append,length_take,Nat.min_eq_left left] at total
      exact total.symm
    have whole : pending ++ input = join lines1 ++ (rest1 ++ input.drop n) := by
      rw [← append_assoc,← text,append_assoc,take_append_drop]
    rw [whole] at plain
    have filled : Holds (store mem (buf + BitVec.ofNat 64 pending.length) (input.take n)) buf (pending ++ input.take n) := by
      refine holds_append.mpr ⟨holds.congr fun j short => store_outside fun i inside same => ?_,store_holds ?_⟩
      · rw [BitVec.add_assoc,← BitVec.ofNat_add] at same
        rw [length_take] at inside
        have equal := add_inj (by omega) (by omega) same
        omega
      · rw [length_take]
        omega
    have taken : (pending ++ input.take n).length = pending.length + n := by
      rw [length_append,length_take,Nat.min_eq_left left]
    have ended := holds_append.mpr ⟨filled.update_after (Nat.le_of_eq taken) (show pending.length + n < 2^64 by omega) 0,
      (show Holds _ _ [0] from ⟨by rw [taken]; exact update_self ..,trivial⟩)⟩
    rw [text] at ended
    obtain ⟨mem',ran,kept⟩ := @scan_lines buf pattern _ lines1 rest1 bufsize ended (by rw [length_append]; omega)
      (fun nul => plain (by rw [← append_assoc]; exact mem_append_left _ nul)) each last
      (Nat.lt_of_le_of_lt (length_lines_le_join lines1) (by omega))
    rw [ran]
    dsimp only
    rw [if_pos (show pending.length + n > 0 by omega)]
    dsimp only
    have number : (BitVec.ofNat 32 rest1.length).toNat = rest1.length := by rw [BitVec.toNat_ofNat,Nat.mod_eq_of_lt (by omega)]
    have start : (buf + BitVec.ofNat 64 (join lines1).length).toNat = buf.toNat + (join lines1).length := by
      rw [BitVec.toNat_add,BitVec.toNat_ofNat,Nat.mod_eq_of_lt (show (join lines1).length < 2^64 by omega),Nat.mod_eq_of_lt (by omega)]
    have position : (buf + BitVec.ofNat 64 (join lines1).length - buf).toNat = (join lines1).length := by
      rw [add_sub_cancel_left,BitVec.toNat_ofNat,Nat.mod_eq_of_lt (by omega)]
    rw [position,show pending.length + n - (join lines1).length = rest1.length by omega]
    have positive : 0 ≤ (BitVec.ofNat 32 rest1.length).toInt := by
      rw [BitVec.toInt_eq_toNat_cond,number,if_pos (by omega)]
      omega
    obtain ⟨-,moved⟩ := @memmove_moved mem' buf (buf + BitVec.ofNat 64 (join lines1).length) (BitVec.ofNat 32 rest1.length) positive
      (by rw [number,start]; omega) (by rw [number]; omega)
    rw [number] at moved
    have compacted : Holds (memmove mem' buf (buf + BitVec.ofNat 64 (join lines1).length) (BitVec.ofNat 32 rest1.length)).2 buf rest1 :=
      holds_iff.mpr fun j short => (moved.inside j short).trans (holds_iff.mp kept j short)
    rw [whole] at all
    obtain ⟨later,rfl,all'⟩ := all.after each
    rw [ih (k + 1) compacted (by omega) last (fun nul => plain (mem_append_right _ nul)) all' (by rw [length_drop]; omega),
      Option.map_some,← join_append,← matching_append]
    -- the lines that have been in the buffer fit into it
    refine congrArg (fun lines => some (join (matching pattern lines))) ?_
    refine (takeWhile_append_of_pos fun line member => decide_eq_true ?_).symm
    have short := length_le_join member
    unfold Fitting
    omega

theorem grep_writes {stream : List Byte} (pattern : List Byte) (pieces : Nat → Nat) (mem : Memory) (placed : buf.toNat + bufsize ≤ 2^64)
    (all : Lines stream lines rest) (plain : 0 ∉ stream) {turns : Nat} (enough : stream.length < turns) :
    grep buf turns pattern pieces stream mem = some (join (matching pattern (before lines))) :=
  grepFrom_writes pattern pieces 0 placed (show Holds mem buf [] from trivial) (by decide) nofun plain all enough

/-- grep writes the lines that match, exactly if none of them is a line that does not fit
into the buffer or comes after such a line. -/
theorem grep_filters_iff {stream : List Byte} (pattern : List Byte) (pieces : Nat → Nat) (mem : Memory) (placed : buf.toNat + bufsize ≤ 2^64)
    (all : Lines stream lines rest) (plain : 0 ∉ stream) :
    ∃ out, (∀ turns, stream.length < turns → grep buf turns pattern pieces stream mem = some out) ∧
      (out = join (matching pattern lines) ↔ ∀ line ∈ lines.dropWhile fun line => decide (Fitting line), ¬Finds pattern line) := by
  refine ⟨_,fun turns enough => grep_writes pattern pieces mem placed all plain enough,?_⟩
  have split : lines = before lines ++ lines.dropWhile fun line => decide (Fitting line) := List.takeWhile_append_dropWhile.symm
  rw [show join (matching pattern lines) = join (matching pattern (before lines)) ++
    join (matching pattern (lines.dropWhile fun line => decide (Fitting line))) by rw [← join_append,← matching_append,← split],
    List.self_eq_append_right,join_eq_nil,matching,List.filter_eq_nil_iff]
  simp only [decide_eq_true_iff]

theorem grep_filters_iff_short : ∃ out, (∀ turns, 4 < turns → grep 0 turns [0x61] (fun _ => 1) [0x61,0x0A,0x62,0x0A] (fun _ => 0) = some out) ∧
    (out = join (matching [0x61] [[0x61],[0x62]]) ↔ ∀ line ∈ [[0x61],[0x62]].dropWhile fun line => decide (Fitting line), ¬Finds [0x61] line) :=
  grep_filters_iff [0x61] (fun _ => 1) (fun _ => 0) (by decide)
    (show Lines [0x61,0x0A,0x62,0x0A] [[0x61],[0x62]] [] from ⟨rfl,by decide,nofun⟩) (by decide)

theorem grep_drops_long : ¬∀ (buf : Addr) (pattern : List Byte) (pieces : Nat → Nat) (mem : Memory) (stream : List Byte) (lines : List (List Byte))
    (rest : List Byte), buf.toNat + bufsize ≤ 2^64 → Lines stream lines rest → 0 ∉ stream →
    ∀ turns, stream.length < turns → grep buf turns pattern pieces stream mem = some (join (matching pattern lines)) := by
  intro claim
  have only : Lines (join [List.replicate 1023 0x61]) [List.replicate 1023 0x61] [] := by
    refine ⟨(List.append_nil _).symm,fun line member => ?_,nofun⟩
    rw [List.mem_singleton.mp member]
    exact fun there => absurd (List.eq_of_mem_replicate there) (by decide)
  have plain : (0 : Byte) ∉ join [List.replicate 1023 0x61] := by
    rw [join_cons,List.mem_append,not_or]
    exact ⟨fun there => absurd (List.eq_of_mem_replicate there) (by decide),by decide⟩
  have long : before [List.replicate 1023 (0x61 : Byte)] = [] := by
    refine List.takeWhile_cons_of_neg ?_
    rw [decide_eq_true_iff,Fitting,List.length_replicate]
    decide
  have found : Finds [0x61] (List.replicate 1023 0x61) :=
    (if_neg (by decide)).mpr ⟨[],List.replicate 1023 0x61,rfl,[0x61],List.replicate 1022 0x61,rfl,.literal 0x61 (.nil _)⟩
  have placed : (0 : Addr).toNat + bufsize ≤ 2^64 := by decide
  have wanted := claim 0 [0x61] (fun _ => 1) (fun _ => 0) _ _ _ placed only plain _ (Nat.lt_succ_self _)
  rw [grep_writes [0x61] (fun _ => 1) (fun _ => 0) placed only plain (Nat.lt_succ_self _),long,matching_cons,if_pos found] at wanted
  have same := Option.some.inj wanted
  rw [join_cons] at same
  exact absurd same.symm (List.append_ne_nil_of_right_ne_nil _ (List.cons_ne_nil _ _))

end Xv6.Grep
