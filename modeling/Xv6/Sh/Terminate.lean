import Xv6.Sh.Parser

/-! nulterminate and parsecmd. A NUL is written to the end of a word, where there is no
character of any word, so that no word is cut. -/
namespace Xv6.Sh
open List

variable {line buf : List Byte} {cmd : Cmd}
variable {s : List Byte} {places pointers : List Nat} {e fuel i : Nat}

def zeroAt (buf : List Byte) (places : List Nat) : List Byte := places.foldl (fun buf e => buf.set e 0) buf

theorem length_zeroAt (buf : List Byte) (places : List Nat) : (zeroAt buf places).length = buf.length := by
  unfold zeroAt
  induction places generalizing buf with
  | nil => rfl
  | cons e places ih => rw [foldl_cons,ih,length_set]

theorem getElem?_zeroAt (buf : List Byte) (places : List Nat) {k : Nat} (inside : k < buf.length) :
    (zeroAt buf places)[k]? = if k ∈ places then some 0 else buf[k]? := by
  unfold zeroAt
  induction places generalizing buf with
  | nil => rfl
  | cons e places ih => grind

def Cmd.ends : Cmd → List Nat
  | .exec argv eargv => (args argv eargv).map Prod.snd
  | .redir cmd _ efile _ _ => cmd.ends ++ [efile]
  | .pipe left right => left.ends ++ right.ends
  | .list left right => left.ends ++ right.ends
  | .back cmd => cmd.ends

theorem getElem?_padded (pointers : List Nat) (inside : i < pointers.length) :
    (padded pointers)[i]? = some pointers[i]? := by
  rw [padded,getElem?_append_left (by rw [length_map]; exact inside),getElem?_map,getElem?_eq_getElem inside]
  rfl

theorem getElem?_padded_end (room : pointers.length < maxargs) : (padded pointers)[pointers.length]? = some none := by
  rw [padded,getElem?_append_right (by rw [length_map]),length_map,Nat.sub_self,getElem?_replicate,if_pos (by omega)]

theorem length_padded (room : pointers.length < maxargs) : (padded pointers).length = maxargs := by
  rw [padded,length_append,length_map,length_replicate]
  omega

theorem terminateArgs_eq {as : List (Nat × Nat)} (room : as.length < maxargs) (inside : ∀ a ∈ as, a.2 < buf.length)
    {turns : Nat}
    (low : i ≤ as.length) (enough : as.length < i + turns) :
    terminateArgs (padded (as.map Prod.fst)) (padded (as.map Prod.snd)) turns i buf = some (zeroAt buf ((as.drop i).map Prod.snd)) := by
  induction turns generalizing i buf with
  | zero => omega
  | succ turns ih =>
    rw [terminateArgs]
    rcases Nat.lt_or_ge i as.length with less | ge
    · rw [getElem?_padded _ (by rw [length_map]; exact less),getElem?_padded _ (by rw [length_map]; exact less),getElem?_map,getElem?_map,
        getElem?_eq_getElem less]
      dsimp only [Option.map_some]
      rw [if_pos (inside _ (getElem_mem less)),ih (fun a member => by rw [length_set]; exact inside a member) less (by omega),
        drop_eq_getElem_cons less]
      rfl
    · have last : i = (as.map Prod.fst).length := by rw [length_map]; omega
      rw [last,getElem?_padded_end (by rw [length_map]; exact room),length_map,drop_length]
      rfl

theorem nulterminate_eq (sound : cmd.Sound line) (length : buf.length = line.length + 1) : nulterminate cmd buf = some (zeroAt buf cmd.ends) := by
  induction cmd generalizing buf with
  | exec argv eargv =>
    obtain ⟨as,room,rfl,rfl,words⟩ := sound
    rw [nulterminate,terminateArgs_eq room (fun a member => by have inside := (words a member).inside; omega) (Nat.zero_le _)
      (by rw [length_padded (by rw [length_map]; exact room)]; omega),Cmd.ends,args_padded,drop_zero]
  | redir cmd file efile mode fd ih =>
    have inside := sound.2.inside
    rw [nulterminate,ih sound.1 length,Option.bind_some,if_pos (by rw [length_zeroAt]; omega),Cmd.ends,zeroAt,zeroAt,foldl_append]
    rfl
  | pipe left right ihl ihr =>
    rw [nulterminate,ihl sound.1 length,Option.bind_some,ihr sound.2 (by rw [length_zeroAt]; exact length),Cmd.ends,zeroAt,zeroAt,zeroAt,foldl_append]
  | list left right ihl ihr =>
    rw [nulterminate,ihl sound.1 length,Option.bind_some,ihr sound.2 (by rw [length_zeroAt]; exact length),Cmd.ends,zeroAt,zeroAt,zeroAt,foldl_append]
  | back cmd ih => exact ih sound length

/-! parsecmd. -/

theorem parsecmd_eq (ran : parseline line.length fuel line = .ok (cmd,s)) (done : tokens s = [])
    (sound : cmd.Sound line) :
    parsecmd fuel line = .ok (cmd,zeroAt (line ++ [0]) cmd.ends) := by
  have none : skipSpace s = [] := by
    rcases tokens_cut s with ⟨start,-⟩ | ⟨c,s',t,rest,-,first,-⟩
    · exact start
    · rw [done] at first
      cases first
  rw [parsecmd,ran]
  dsimp only
  rw [peek_nil done,none]
  dsimp only
  rw [if_neg (not_not.mpr rfl),nulterminate_eq sound (by rw [length_append,length_singleton])]

theorem parsecmd_left (ran : parseline line.length fuel line = .ok (cmd,s)) (more : tokens s ≠ []) :
    parsecmd fuel line = .error (.panic (.leftovers (skipSpace s))) := by
  have rest : (peek s []).2 = skipSpace s := by rw [peek_eq s fun c member => absurd member not_mem_nil]
  have some : skipSpace s ≠ [] := by
    intro none
    rw [← tokens_skipSpace,none,tokens] at more
    exact more rfl
  rw [parsecmd,ran]
  dsimp only
  rw [rest,if_pos some]

/-- What parsecmd has returned has been parsed from all of the line. -/
theorem parsecmd_ok (ran : parsecmd fuel line = .ok (cmd,buf)) :
    ∃ s, parseline line.length fuel line = .ok (cmd,s) ∧ tokens s = [] ∧ cmd.Sound line ∧ buf = zeroAt (line ++ [0]) cmd.ends := by
  cases result : parseline line.length fuel line with
  | error e =>
    rw [parsecmd,result] at ran
    cases ran
  | ok pair =>
    obtain ⟨cmd',s⟩ := pair
    have sound := (((parse_sane line fuel).1 line (suffix_refl _)).2 cmd' s result).sound
    by_cases done : tokens s = []
    · rw [parsecmd_eq result done sound] at ran
      cases ran
      exact ⟨s,rfl,done,sound,rfl⟩
    · rw [parsecmd_left result done] at ran
      cases ran

/-- parsecmd ends, and returns a tree exactly if its tokens derive from line and no
simple command has too many words; the tree is that of the derivation. -/
theorem parsecmd_accepts_iff (line : List Byte) {fuel : Nat} (enough : 4 * line.length + 4 ≤ fuel) :
    Answers (parsecmd fuel line) ∧
      ∀ tree, (∃ cmd buf, parsecmd fuel line = .ok (cmd,buf) ∧ cmd.tree line = tree) ↔ Derives .line (tokens line) tree ∧ tree.Small := by
  obtain ⟨answers,sane⟩ := (parse_sane line fuel).1 line (List.suffix_refl _)
  refine ⟨?_,fun tree => ⟨?_,?_⟩⟩
  · rcases answers enough with ⟨⟨cmd,s⟩,ran⟩ | ⟨reason,failed⟩
    · by_cases done : tokens s = []
      · exact .inl ⟨_,parsecmd_eq ran done (sane cmd s ran).sound⟩
      · exact .inr ⟨_,parsecmd_left ran done⟩
    · refine .inr ⟨reason,?_⟩
      rw [parsecmd,failed]
  · rintro ⟨cmd,buf,ran,rfl⟩
    obtain ⟨s,parsed,done,sound,-⟩ := parsecmd_ok ran
    obtain ⟨-,⟨ts,split,derives⟩,-⟩ := sane cmd s parsed
    rw [done,List.append_nil] at split
    exact ⟨split ▸ derives,sound.small⟩
  · rintro ⟨derives,small⟩
    obtain ⟨cmd,s,ran,done,-,tree⟩ := parse_complete derives line [] fuel (List.suffix_refl _) (List.append_nil _).symm small (.inl rfl) enough
    exact ⟨cmd,_,parsecmd_eq ran done (sane cmd s ran).sound,tree⟩

theorem parsecmd_accepts_iff_word : ∃ tree, (∃ cmd buf, parsecmd 8 [0x61] = .ok (cmd,buf) ∧ cmd.tree [0x61] = tree) ∧
    Derives .line (tokens [0x61]) tree ∧ tree.Small := by
  have ran : (parsecmd 8 [0x61]).toOption.isSome = true := by decide +kernel
  rcases (parsecmd_accepts_iff [0x61] (show 4 * 1 + 4 ≤ 8 by decide)).1 with ⟨⟨cmd,buf⟩,same⟩ | ⟨reason,same⟩
  · exact ⟨_,⟨cmd,buf,same,rfl⟩,((parsecmd_accepts_iff [0x61] (show 4 * 1 + 4 ≤ 8 by decide)).2 _).mp ⟨cmd,buf,same,rfl⟩⟩
  · rw [same] at ran
    cases ran

/-! The words. -/

def stringAt (buf : List Byte) (q : Nat) : List Byte := (buf.drop q).takeWhile fun c => decide (c ≠ 0)

/-- The strings of a command are the words that it has been made from, and an array ends
with a null pointer. -/
def Cmd.Terminated (line buf : List Byte) : Cmd → Prop
  | .exec argv eargv => argv.length = maxargs ∧ ∃ n < maxargs, argv[n]? = some none ∧
      ∀ i < n, ∃ q e, argv[i]? = some (some q) ∧ eargv[i]? = some (some e) ∧ Word line q e ∧ stringAt buf q = slice line q e
  | .redir cmd file efile _ _ => cmd.Terminated line buf ∧ Word line file efile ∧ stringAt buf file = slice line file efile
  | .pipe left right => left.Terminated line buf ∧ right.Terminated line buf
  | .list left right => left.Terminated line buf ∧ right.Terminated line buf
  | .back cmd => cmd.Terminated line buf

theorem Cmd.Sound.ends (sound : cmd.Sound line) (member : e ∈ cmd.ends) : ∃ q, Word line q e := by
  induction cmd with
  | exec argv eargv =>
    obtain ⟨as,-,rfl,rfl,words⟩ := sound
    rw [Cmd.ends,args_padded] at member
    obtain ⟨a,there,rfl⟩ := mem_map.mp member
    exact ⟨a.1,words a there⟩
  | redir cmd file efile mode fd ih =>
    rcases mem_append.mp member with inner | last
    · exact ih sound.1 inner
    · rw [mem_singleton.mp last]
      exact ⟨file,sound.2⟩
  | pipe left right ihl ihr => exact (mem_append.mp member).elim (ihl sound.1) (ihr sound.2)
  | list left right ihl ihr => exact (mem_append.mp member).elim (ihl sound.1) (ihr sound.2)
  | back cmd ih => exact ih sound member

theorem stringAt_zeroAt {q : Nat} (plain : 0 ∉ line) (word : Word line q e) (there : e ∈ places)
    (apart : ∀ e' ∈ places, ∃ q', Word line q' e') : stringAt (zeroAt (line ++ [0]) places) q = slice line q e := by
  have length : (line ++ [0]).length = line.length + 1 := by rw [length_append,length_singleton]
  have inside := word.inside
  have nonempty := word.nonempty
  have size : (slice line q e).length = e - q := by
    rw [slice,length_drop,length_take,Nat.min_eq_left inside]
  -- the word is followed by the NUL
  have split : (zeroAt (line ++ [0]) places).drop q = slice line q e ++ 0 :: (zeroAt (line ++ [0]) places).drop (e + 1) := by
    refine ext_getElem? fun k => ?_
    rw [getElem?_drop]
    rcases Nat.lt_trichotomy k (e - q) with less | same | greater
    · have kept : q + k ∉ places := by
        intro member
        obtain ⟨q',other⟩ := apart _ member
        have char := getElem?_eq_getElem (show q + k < line.length by omega)
        exact other.ends _ char (word.chars _ _ (by omega) (by omega) char)
      rw [getElem?_append_left (by rw [size]; exact less),getElem?_zeroAt _ _ (by rw [length]; omega),if_neg kept,
        getElem?_append_left (by omega),slice,getElem?_drop,getElem?_take_of_lt (by omega)]
    · rw [getElem?_append_right (by rw [size]; omega),size,same,Nat.sub_self,getElem?_cons_zero,show q + (e - q) = e by omega,
        getElem?_zeroAt _ _ (by rw [length]; omega),if_pos there]
    · grind
  rw [stringAt,split,takeWhile_append_of_pos,takeWhile_cons_of_neg (by decide),append_nil]
  intro c member
  refine decide_eq_true fun zero => plain ?_
  rw [zero] at member
  exact mem_of_mem_take (mem_of_mem_drop member)

theorem Cmd.Sound.terminated (plain : 0 ∉ line) (sound : cmd.Sound line) (written : ∀ e ∈ cmd.ends, e ∈ places)
    (apart : ∀ e ∈ places, ∃ q, Word line q e) : cmd.Terminated line (zeroAt (line ++ [0]) places) := by
  induction cmd with
  | exec argv eargv =>
    obtain ⟨as,room,rfl,rfl,words⟩ := sound
    rw [Cmd.ends,args_padded] at written
    have length : (as.map Prod.fst).length = as.length := length_map _
    refine ⟨length_padded (by rw [length]; exact room),as.length,room,?_,fun i less => ?_⟩
    · rw [← length]
      exact getElem?_padded_end (by rw [length]; exact room)
    · have word := words _ (getElem_mem less)
      refine ⟨as[i].1,as[i].2,?_,?_,word,stringAt_zeroAt plain word (written _ (mem_map_of_mem (getElem_mem less))) apart⟩
      · rw [getElem?_padded _ (by rw [length]; exact less),getElem?_map,getElem?_eq_getElem less]
        rfl
      · rw [getElem?_padded _ (by rw [length_map]; exact less),getElem?_map,getElem?_eq_getElem less]
        rfl
  | redir cmd file efile mode fd ih =>
    exact ⟨ih sound.1 fun e member => written e (mem_append_left _ member),sound.2,
      stringAt_zeroAt plain sound.2 (written efile (mem_append_right _ mem_cons_self)) apart⟩
  | pipe left right ihl ihr =>
    exact ⟨ihl sound.1 fun e member => written e (mem_append_left _ member),ihr sound.2 fun e member => written e (mem_append_right _ member)⟩
  | list left right ihl ihr =>
    exact ⟨ihl sound.1 fun e member => written e (mem_append_left _ member),ihr sound.2 fun e member => written e (mem_append_right _ member)⟩
  | back cmd ih => exact ih sound written

/-- In the buffer that parsecmd leaves every word of the tree is a string of its own. -/
theorem parsecmd_terminates_words {fuel : Nat} (plain : 0 ∉ line) (ran : parsecmd fuel line = .ok (cmd,buf)) :
    cmd.Terminated line buf := by
  obtain ⟨s,-,-,sound,rfl⟩ := parsecmd_ok ran
  exact sound.terminated plain (fun e member => member) fun e member => sound.ends member

theorem parsecmd_terminates_words_redirected : ∃ cmd buf, parsecmd 16 [0x61,0x3C,0x62] = .ok (cmd,buf) ∧ cmd.Terminated [0x61,0x3C,0x62] buf := by
  have ran : (parsecmd 16 [0x61,0x3C,0x62]).toOption.isSome = true := by decide +kernel
  cases result : parsecmd 16 [0x61,0x3C,0x62] with
  | error e =>
    rw [result] at ran
    cases ran
  | ok pair => exact ⟨pair.1,pair.2,rfl,parsecmd_terminates_words (by decide) result⟩

end Xv6.Sh
