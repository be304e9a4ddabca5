import Xv6.Sh.Grammar

/-! The parser decides the grammar. Each function is first described by the tokens that
it finds; that what it accepts is derived goes by induction on the turns, and that it
accepts what is derived by induction on the derivation. -/
namespace Xv6.Sh
open List

variable {line s : List Byte} {fuel : Nat} {t : Token} {ts us : List Token} {redirs : List Redir} {ds : List Redirection}

def Answers {α : Type} (r : Except Stop α) : Prop := (∃ a, r = .ok a) ∨ ∃ reason, r = .error (.panic reason)

theorem Answers.error {α : Type} {e : Stop} (answers : Answers (.error e : Except Stop α)) : ∃ reason, e = .panic reason := by
  rcases answers with ⟨a,same⟩ | ⟨reason,same⟩
  · cases same
  · cases same
    exact ⟨reason,rfl⟩

theorem Answers.map {α β : Type} {r : Except Stop α} (answers : Answers r) (f : α → β) : Answers (r.map f) := by
  rcases answers with ⟨a,rfl⟩ | ⟨reason,rfl⟩
  · exact .inl ⟨f a,rfl⟩
  · exact .inr ⟨reason,rfl⟩

theorem map_ok {α β : Type} {r : Except Stop α} {f : α → β} {b : β} (same : r.map f = .ok b) : ∃ a, r = .ok a ∧ f a = b := by
  cases r with
  | error e => cases same
  | ok a => exact ⟨a,rfl,Except.ok.inj same⟩

theorem peek_eq (s : List Byte) {toks : List Byte} (plain : ∀ c ∈ toks, c ∈ symbols) :
    peek s toks = (((tokens s).head?.bind Token.first).any fun c => decide (c ∈ toks),skipSpace s) := by
  cases first : tokens s with
  | nil => exact peek_nil first toks
  | cons t ts => exact peek_cons first plain

/-! Redirections. -/

def Plain (ts : List Token) : Prop := ∀ kind us, ts ≠ Kind.token kind :: us

theorem plain_or (ts : List Token) : Plain ts ∨ ∃ kind us, ts = Kind.token kind :: us := by
  by_cases plain : Plain ts
  · exact .inl plain
  · unfold Plain at plain
    push Not at plain
    exact .inr plain

theorem parseredirs_stop (plain : Plain (tokens s)) : parseredirs line.length (fuel + 1) redirs s = .ok (redirs,skipSpace s) := by
  have no : (((tokens s).head?.bind Token.first).any fun c => decide (c ∈ ([0x3C,0x3E] : List Byte))) = false := by
    cases first : tokens s with
    | nil => rfl
    | cons t ts =>
      rw [first] at plain
      cases t with
      | less => exact absurd rfl (plain .less ts)
      | greater => exact absurd rfl (plain .greater ts)
      | append => exact absurd rfl (plain .append ts)
      | _ => rfl
  rw [parseredirs,peek_eq s (by decide),no]
  rfl

theorem peek_kind {kind : Kind} (first : tokens s = kind.token :: ts) : peek s [0x3C,0x3E] = (true,skipSpace s) := by
  rw [peek_eq s (by decide),first]
  cases kind <;> rfl

theorem parseredirs_take {kind : Kind} {w : List Byte} (first : tokens s = kind.token :: .word w :: ts) (inside : s <:+ line) (fuel : Nat)
    (redirs : List Redir) : ∃ r s', parseredirs line.length (fuel + 1) redirs s = parseredirs line.length fuel (redirs ++ [r]) s' ∧
      Redir.Shows line r ⟨kind,w⟩ ∧ tokens s' = ts ∧ s' <:+ s ∧ s'.length < s.length := by
  obtain ⟨q₁,eq₁,s₁,taken,rest,suffix,shorter,-⟩ := @gettoken_cons s _ _ line.length first
  obtain ⟨q,eq,s₂,taken₂,rest₂,suffix₂,shorter₂,word⟩ := @gettoken_cons s₁ _ _ line.length rest
  obtain ⟨between,text⟩ := word w line rfl rfl (suffix.trans inside)
  refine ⟨⟨q,eq,kind.mode,kind.fd⟩,s₂,?_,⟨rfl,rfl,between,text⟩,rest₂,suffix₂.trans suffix,by omega⟩
  rw [parseredirs,peek_kind first]
  dsimp only
  rw [if_pos rfl,gettoken_skipSpace,taken]
  dsimp only
  rw [taken₂]
  cases kind <;> rfl

theorem parseredirs_fail {kind : Kind} (first : tokens s = kind.token :: ts) (none : ∀ w us, ts ≠ .word w :: us) :
    parseredirs line.length (fuel + 1) redirs s = .error (.panic .missingFile) := by
  obtain ⟨q₁,eq₁,s₁,taken,rest,-⟩ := @gettoken_cons s _ _ line.length first
  rw [parseredirs,peek_kind first]
  dsimp only
  rw [if_pos rfl,gettoken_skipSpace,taken]
  dsimp only
  cases ts with
  | nil =>
    rw [gettoken_nil rest]
    rfl
  | cons t ts =>
    obtain ⟨q,eq,s₂,taken₂,-⟩ := @gettoken_cons s₁ _ _ line.length rest
    rw [taken₂]
    cases t with
    | word w => exact absurd rfl (none w ts)
    | _ => rfl

theorem parseredirs_sound (inside : s <:+ line) : (s.length < fuel → Answers (parseredirs line.length fuel redirs s)) ∧
    ∀ rs s', parseredirs line.length fuel redirs s = .ok (rs,s') → ∃ new ds, rs = redirs ++ new ∧ List.Forall₂ (Redir.Shows line) new ds ∧
      tokens s = ds.flatMap Redirection.tokens ++ tokens s' ∧ s' <:+ s ∧ Plain (tokens s') := by
  induction fuel generalizing s redirs with
  | zero => exact ⟨fun less => absurd less (Nat.not_lt_zero _),nofun⟩
  | succ fuel ih =>
    rcases plain_or (tokens s) with plain | ⟨kind,ts,first⟩
    · rw [parseredirs_stop plain]
      refine ⟨fun _ => .inl ⟨_,rfl⟩,fun rs s' same => ?_⟩
      cases same
      rw [tokens_skipSpace]
      exact ⟨[],[],(append_nil _).symm,.nil,rfl,skipSpace_suffix s,plain⟩
    by_cases word : ∃ w us, ts = .word w :: us
    · obtain ⟨w,us,rfl⟩ := word
      obtain ⟨r,s₁,step,shows,rest,suffix,shorter⟩ := parseredirs_take first inside fuel redirs
      obtain ⟨answers,sound⟩ := @ih s₁ (redirs ++ [r]) (suffix.trans inside)
      rw [step]
      refine ⟨fun enough => answers (by omega),fun rs s' same => ?_⟩
      obtain ⟨new,ds,rfl,shown,split,suffix',plain⟩ := sound rs s' same
      refine ⟨r :: new,⟨kind,w⟩ :: ds,by rw [append_assoc]; rfl,.cons shows shown,?_,suffix'.trans suffix,plain⟩
      rw [first,← rest,split]
      rfl
    · rw [parseredirs_fail first fun w us same => word ⟨w,us,same⟩]
      exact ⟨fun _ => .inr ⟨_,rfl⟩,nofun⟩

theorem parseredirs_complete (inside : s <:+ line) (split : tokens s = ds.flatMap Redirection.tokens ++ us) (plain : Plain us)
    (enough : s.length < fuel) (redirs : List Redir) : ∃ new s', parseredirs line.length fuel redirs s = .ok (redirs ++ new,s') ∧
      List.Forall₂ (Redir.Shows line) new ds ∧ tokens s' = us ∧ s' <:+ s := by
  induction ds generalizing s redirs fuel with
  | nil =>
    obtain ⟨fuel,rfl⟩ := Nat.exists_eq_succ_of_ne_zero (Nat.ne_of_gt (Nat.lt_of_le_of_lt (Nat.zero_le _) enough))
    rw [flatMap_nil,nil_append] at split
    refine ⟨[],skipSpace s,?_,.nil,by rw [tokens_skipSpace,split],skipSpace_suffix s⟩
    rw [parseredirs_stop (by rw [split]; exact plain),append_nil]
  | cons d ds ih =>
    obtain ⟨fuel,rfl⟩ := Nat.exists_eq_succ_of_ne_zero (Nat.ne_of_gt (Nat.lt_of_le_of_lt (Nat.zero_le _) enough))
    have first : tokens s = d.kind.token :: .word d.file :: (ds.flatMap Redirection.tokens ++ us) := split
    obtain ⟨r,s₁,step,shows,rest,suffix,shorter⟩ := parseredirs_take first inside fuel redirs
    obtain ⟨new,s',ran,shown,left,suffix'⟩ := ih (suffix.trans inside) rest (show s₁.length < fuel by omega) (redirs ++ [r])
    refine ⟨r :: new,s',?_,.cons shows shown,left,suffix'.trans suffix⟩
    rw [step,ran,append_assoc]
    rfl

/-! Simple commands. -/

def Token.ends : Token → Bool
  | .bar => true
  | .right => true
  | .ampersand => true
  | .semicolon => true
  | _ => false

def Stops (us : List Token) : Prop := ∀ t us', us = t :: us' → t.ends = true

theorem Stops.plain (stops : Stops us) : Plain us := by
  intro kind us' same
  have ends := stops _ _ same
  cases kind <;> cases ends

variable {as : List (Nat × Nat)}

theorem peek_ends (first : tokens s = t :: ts) : peek s [0x7C,0x29,0x26,0x3B] = (t.ends,skipSpace s) := by
  rw [peek_eq s (by decide),first]
  cases t <;> rfl

theorem parseargs_stop (room : as.length < maxargs) (stops : Stops (tokens s)) (fuel : Nat) : ∃ s', tokens s' = tokens s ∧ s' <:+ s ∧
    parseargs line.length (fuel + 1) (padded (as.map Prod.fst)) (padded (as.map Prod.snd)) as.length redirs s =
      .ok (wrap (.exec (padded (as.map Prod.fst)) (padded (as.map Prod.snd))) redirs,s') := by
  cases first : tokens s with
  | nil =>
    refine ⟨[],by rw [tokens],nil_suffix,?_⟩
    rw [parseargs,peek_nil first]
    dsimp only
    rw [if_neg Bool.false_ne_true,gettoken_skipSpace,gettoken_nil first]
    dsimp only
    rw [if_pos rfl,setEntries_null room]
    rfl
  | cons t ts =>
    refine ⟨skipSpace s,by rw [tokens_skipSpace,first],skipSpace_suffix s,?_⟩
    rw [parseargs,peek_ends first]
    dsimp only
    rw [if_pos (stops t ts first),setEntries_null room]
    rfl

theorem parseargs_word {w : List Byte} (first : tokens s = .word w :: ts) (inside : s <:+ line) (room : as.length < maxargs) (fuel : Nat)
    (redirs : List Redir) : ∃ a s₁, Word line a.1 a.2 ∧ slice line a.1 a.2 = w ∧ tokens s₁ = ts ∧ s₁ <:+ s ∧ s₁.length < s.length ∧
      parseargs line.length (fuel + 1) (padded (as.map Prod.fst)) (padded (as.map Prod.snd)) as.length redirs s =
        if maxargs ≤ (as ++ [a]).length then .error (.panic .tooMany)
        else
          match parseredirs line.length fuel redirs s₁ with
          | .error e => .error e
          | .ok (redirs,s) =>
            parseargs line.length fuel (padded ((as ++ [a]).map Prod.fst)) (padded ((as ++ [a]).map Prod.snd)) (as ++ [a]).length redirs s := by
  obtain ⟨q,eq,s₁,taken,rest,suffix,shorter,word⟩ := @gettoken_cons s _ _ line.length first
  obtain ⟨between,text⟩ := word w line rfl rfl inside
  refine ⟨(q,eq),s₁,between,text,rest,suffix,shorter,?_⟩
  rw [parseargs,peek_ends first]
  dsimp only
  rw [if_neg (show ¬(Token.word w).ends = true from Bool.false_ne_true),gettoken_skipSpace,taken]
  dsimp only
  rw [if_neg (show ¬(Token.word w).code = 0 from (by decide : ¬(0x61 : Byte) = 0)),if_neg (show ¬(Token.word w).code ≠ 0x61 from not_not.mpr rfl),
    setEntries_padded (q,eq) room,length_append]
  rfl

theorem parseargs_wrong (first : tokens s = t :: ts) (goesOn : t.ends = false) (noWord : ∀ w, t ≠ .word w) :
    parseargs line.length (fuel + 1) (padded (as.map Prod.fst)) (padded (as.map Prod.snd)) as.length redirs s = .error (.panic .wrong) := by
  obtain ⟨q,eq,s₁,taken,-⟩ := @gettoken_cons s _ _ line.length first
  rw [parseargs,peek_ends first]
  dsimp only
  rw [if_neg (by rw [goesOn]; exact Bool.false_ne_true),gettoken_skipSpace,taken]
  cases t with
  | word w => exact absurd rfl (noWord w)
  | _ => rfl

theorem leading (parts : List Part) : ∃ (ds : List Redirection) (rest : List Part), parts = ds.map Part.redir ++ rest ∧ (rest = [] ∨ ∃ w rest', rest = .word w :: rest') := by
  induction parts with
  | nil => exact ⟨[],[],rfl,.inl rfl⟩
  | cons part parts ih =>
    cases part with
    | word w => exact ⟨[],.word w :: parts,rfl,.inr ⟨w,parts,rfl⟩⟩
    | redir d =>
      obtain ⟨ds,rest,rfl,start⟩ := ih
      exact ⟨d :: ds,rest,rfl,start⟩

theorem flatMap_redir (ds : List Redirection) : (ds.map Part.redir).flatMap Part.tokens = ds.flatMap Redirection.tokens := by
  rw [flatMap_map]
  rfl

theorem words_redir (ds : List Redirection) : (ds.map Part.redir).filterMap Part.word? = [] := by
  rw [filterMap_map]
  exact filterMap_none ds

theorem redirs_redir (ds : List Redirection) : (ds.map Part.redir).filterMap Part.redir? = ds := by
  rw [filterMap_map]
  exact filterMap_some

theorem parseargs_sound (inside : s <:+ line) (room : as.length < maxargs) (words : ∀ a ∈ as, Word line a.1 a.2)
    (shown : List.Forall₂ (Redir.Shows line) redirs ds) :
    (s.length < fuel → Answers (parseargs line.length fuel (padded (as.map Prod.fst)) (padded (as.map Prod.snd)) as.length redirs s)) ∧
      ∀ cmd s', parseargs line.length fuel (padded (as.map Prod.fst)) (padded (as.map Prod.snd)) as.length redirs s = .ok (cmd,s') →
        ∃ parts : List Part, tokens s = parts.flatMap Part.tokens ++ tokens s' ∧ s' <:+ s ∧ cmd.Sound line ∧
          cmd.tree line = around (.exec ((as.map fun a => slice line a.1 a.2) ++ parts.filterMap Part.word?)) (ds ++ parts.filterMap Part.redir?) := by
  induction fuel generalizing s as redirs ds with
  | zero => exact ⟨fun less => absurd less (Nat.not_lt_zero _),by rintro _ _ ⟨⟩⟩
  | succ fuel ih =>
    by_cases stops : Stops (tokens s)
    · obtain ⟨s₁,same,suffix,ran⟩ := @parseargs_stop line s redirs as room stops fuel
      rw [ran]
      refine ⟨fun _ => .inl ⟨_,rfl⟩,fun cmd s' result => ?_⟩
      cases result
      refine ⟨[],same.symm,suffix,sound_wrap shown ⟨as,room,rfl,rfl,words⟩,?_⟩
      rw [tree_wrap shown,Cmd.tree,args_padded,filterMap_nil,filterMap_nil,append_nil,append_nil]
    unfold Stops at stops
    push Not at stops
    obtain ⟨t,ts,first,goesOn⟩ := stops
    by_cases word : ∃ w, t = .word w
    swap
    · rw [parseargs_wrong first (Bool.not_eq_true _ ▸ goesOn) fun w same => word ⟨w,same⟩]
      exact ⟨fun _ => .inr ⟨_,rfl⟩,by rintro _ _ ⟨⟩⟩
    obtain ⟨w,rfl⟩ := word
    obtain ⟨a,s₁,between,text,rest,suffix,shorter,ran⟩ := parseargs_word first inside room fuel redirs
    rw [ran]
    by_cases full : maxargs ≤ (as ++ [a]).length
    · rw [if_pos full]
      exact ⟨fun _ => .inr ⟨_,rfl⟩,by rintro _ _ ⟨⟩⟩
    rw [if_neg full]
    obtain ⟨answers,sound⟩ := @parseredirs_sound line s₁ fuel redirs (suffix.trans inside)
    cases result : parseredirs line.length fuel redirs s₁ with
    | error e =>
      refine ⟨fun enough => ?_,by rintro _ _ ⟨⟩⟩
      rw [result] at answers
      obtain ⟨reason,rfl⟩ := (answers (by omega)).error
      exact .inr ⟨reason,rfl⟩
    | ok pair =>
      obtain ⟨rs,s₂⟩ := pair
      obtain ⟨new,ds',rfl,shown',split,suffix',-⟩ := sound rs s₂ result
      obtain ⟨answers',sound'⟩ := @ih s₂ (redirs ++ new) (ds ++ ds') (as ++ [a]) (suffix'.trans (suffix.trans inside)) (by omega)
        (fun b member => by
          rcases mem_append.mp member with member | member
          · exact words b member
          · rw [mem_singleton.mp member]
            exact between) (rel_append shown shown')
      have length := suffix'.length_le
      refine ⟨fun enough => answers' (by omega),fun cmd s' same => ?_⟩
      obtain ⟨parts,split',suffix'',wellFormed,tree⟩ := sound' cmd s' same
      refine ⟨.word w :: (ds'.map Part.redir ++ parts),?_,suffix''.trans (suffix'.trans suffix),wellFormed,?_⟩
      · rw [first,flatMap_cons,flatMap_append,flatMap_redir,← rest,split,split',append_assoc]
        simp only [Part.tokens,append_assoc,cons_append,nil_append]
      · rw [tree,map_append,filterMap_cons_some (show Part.word? (.word w) = some w from rfl),
          filterMap_cons_none (show Part.redir? (.word w) = none from rfl),filterMap_append,filterMap_append,words_redir,redirs_redir,
          nil_append,append_assoc,append_assoc,map_singleton,text]
        rfl

theorem parseargs_complete {parts : List Part} (inside : s <:+ line) (split : tokens s = parts.flatMap Part.tokens ++ us)
    (start : parts = [] ∨ ∃ w rest, parts = .word w :: rest) (stops : Stops us) (room : as.length + (parts.filterMap Part.word?).length < maxargs)
    (shown : List.Forall₂ (Redir.Shows line) redirs ds) (enough : s.length < fuel) : ∃ cmd s',
      parseargs line.length fuel (padded (as.map Prod.fst)) (padded (as.map Prod.snd)) as.length redirs s = .ok (cmd,s') ∧ tokens s' = us ∧ s' <:+ s ∧
        cmd.tree line = around (.exec ((as.map fun a => slice line a.1 a.2) ++ parts.filterMap Part.word?)) (ds ++ parts.filterMap Part.redir?) := by
  induction fuel generalizing s as redirs ds parts with
  | zero => exact absurd enough (Nat.not_lt_zero _)
  | succ fuel ih =>
    rcases start with rfl | ⟨w,rest,rfl⟩
    · rw [flatMap_nil,nil_append] at split
      obtain ⟨s₁,same,suffix,ran⟩ := @parseargs_stop line s redirs as (by omega) (by rw [split]; exact stops) fuel
      refine ⟨_,s₁,ran,same.trans split,suffix,?_⟩
      rw [tree_wrap shown,Cmd.tree,args_padded,filterMap_nil,filterMap_nil,append_nil,append_nil]
    obtain ⟨ds',rest,rfl,start⟩ := leading rest
    rw [filterMap_cons_some (show Part.word? (.word w) = some w from rfl),filterMap_append,words_redir,nil_append,
      length_cons] at room
    have first : tokens s = .word w :: (ds'.flatMap Redirection.tokens ++ (rest.flatMap Part.tokens ++ us)) := by
      rw [split,flatMap_cons,flatMap_append,flatMap_redir]
      simp only [Part.tokens,append_assoc,cons_append,nil_append]
    obtain ⟨a,s₁,between,text,left,suffix,shorter,ran⟩ := @parseargs_word line s _ as w first inside (by omega) fuel redirs
    have plain : Plain (rest.flatMap Part.tokens ++ us) := by
      rcases start with rfl | ⟨w',rest',rfl⟩
      · exact stops.plain
      · intro kind us' same
        cases kind <;> cases same
    obtain ⟨new,s₂,ran₂,shown₂,left₂,suffix₂⟩ := @parseredirs_complete line s₁ fuel _ ds' (suffix.trans inside) left plain (by omega) redirs
    obtain ⟨cmd,s',ran₃,left₃,suffix₃,tree⟩ := @ih s₂ (redirs ++ new) (ds ++ ds') (as ++ [a]) rest (suffix₂.trans (suffix.trans inside)) left₂ start
      (by rw [length_append,length_singleton]; omega) (rel_append shown shown₂) (Nat.lt_of_le_of_lt suffix₂.length_le (by omega))
    refine ⟨cmd,s',?_,left₃,suffix₃.trans (suffix₂.trans suffix),?_⟩
    · rw [ran,if_neg (by rw [length_append,length_singleton]; omega),ran₂]
      exact ran₃
    · rw [tree,map_append,filterMap_cons_some (show Part.word? (.word w) = some w from rfl),
        filterMap_cons_none (show Part.redir? (.word w) = none from rfl),filterMap_append,filterMap_append,words_redir,redirs_redir,
        nil_append,append_assoc,append_assoc,map_singleton,text]
      rfl

/-! The operators. -/

theorem peek_single {t : Token} (one : t = .bar ∨ t = .ampersand ∨ t = .semicolon ∨ t = .left ∨ t = .right) (s : List Byte) :
    peek s [t.code] = (decide ((tokens s).head? = some t),skipSpace s) := by
  have plain : ∀ c ∈ [t.code], c ∈ symbols := by rcases one with rfl | rfl | rfl | rfl | rfl <;> decide
  rw [peek_eq s plain]
  refine congrArg (·,skipSpace s) ?_
  cases tokens s with
  | nil => rfl
  | cons u ts => rcases one with rfl | rfl | rfl | rfl | rfl <;> cases u <;> rfl

theorem parsebacks_step (cmd : Cmd) (s : List Byte) (fuel : Nat) : (∃ ts s', tokens s = .ampersand :: ts ∧ tokens s' = ts ∧ s' <:+ s ∧
      s'.length < s.length ∧ parsebacks line.length (fuel + 1) cmd s = parsebacks line.length fuel (.back cmd) s') ∨
    (∀ ts, tokens s ≠ .ampersand :: ts) ∧ parsebacks line.length (fuel + 1) cmd s = .ok (cmd,skipSpace s) := by
  rw [parsebacks,show ([0x26] : List Byte) = [Token.ampersand.code] from rfl,peek_single (.inr (.inl rfl)) s]
  dsimp only
  by_cases more : (tokens s).head? = some .ampersand
  · obtain ⟨ts,first⟩ := head?_eq_some_iff.mp more
    obtain ⟨q,eq,s₁,taken,rest,suffix,shorter,-⟩ := @gettoken_cons s _ _ line.length first
    rw [if_pos (decide_eq_true more),gettoken_skipSpace,taken]
    exact .inl ⟨ts,s₁,first,rest,suffix,shorter,rfl⟩
  · rw [if_neg (by rw [decide_eq_true_iff]; exact more)]
    exact .inr ⟨fun ts first => more (by rw [first]; rfl),rfl⟩

theorem parsebacks_sound (cmd : Cmd) : (s.length < fuel → Answers (parsebacks line.length fuel cmd s)) ∧
    ∀ cmd' s', parsebacks line.length fuel cmd s = .ok (cmd',s') → ∃ n, cmd' = Cmd.back^[n] cmd ∧
      tokens s = replicate n .ampersand ++ tokens s' ∧ s' <:+ s := by
  induction fuel generalizing s cmd with
  | zero => exact ⟨fun less => absurd less (Nat.not_lt_zero _),nofun⟩
  | succ fuel ih =>
    rcases @parsebacks_step line cmd s fuel with ⟨ts,s₁,first,rest,suffix,shorter,step⟩ | ⟨-,stop⟩
    · obtain ⟨answers,sound⟩ := @ih s₁ (.back cmd)
      rw [step]
      refine ⟨fun enough => answers (by omega),fun cmd' s' same => ?_⟩
      obtain ⟨n,rfl,split,suffix'⟩ := sound cmd' s' same
      refine ⟨n + 1,rfl,?_,suffix'.trans suffix⟩
      rw [first,← rest,split]
      rfl
    · rw [stop]
      refine ⟨fun _ => .inl ⟨_,rfl⟩,fun cmd' s' same => ?_⟩
      cases same
      exact ⟨0,rfl,(tokens_skipSpace s).symm,skipSpace_suffix s⟩

theorem parsebacks_complete {n : Nat} (split : tokens s = replicate n .ampersand ++ us) (other : ∀ us', us ≠ .ampersand :: us')
    (enough : s.length < fuel) (cmd : Cmd) : ∃ s', parsebacks line.length fuel cmd s = .ok (Cmd.back^[n] cmd,s') ∧ tokens s' = us ∧ s' <:+ s := by
  induction n generalizing s fuel cmd with
  | zero =>
    obtain ⟨fuel,rfl⟩ := Nat.exists_eq_succ_of_ne_zero (Nat.ne_of_gt (Nat.lt_of_le_of_lt (Nat.zero_le _) enough))
    rcases @parsebacks_step line cmd s fuel with ⟨ts,-,first,-⟩ | ⟨-,stop⟩
    · exact absurd (split.symm.trans first) (other ts)
    · exact ⟨skipSpace s,stop,(tokens_skipSpace s).trans split,skipSpace_suffix s⟩
  | succ n ih =>
    obtain ⟨fuel,rfl⟩ := Nat.exists_eq_succ_of_ne_zero (Nat.ne_of_gt (Nat.lt_of_le_of_lt (Nat.zero_le _) enough))
    have begins : tokens s = .ampersand :: (replicate n .ampersand ++ us) := split
    rcases @parsebacks_step line cmd s fuel with ⟨ts,s₁,first,rest,suffix,shorter,step⟩ | ⟨none,-⟩
    · rw [begins] at first
      obtain ⟨-,rfl⟩ := cons.inj first
      obtain ⟨s',ran,left,suffix'⟩ := ih rest (show s₁.length < fuel by omega) (.back cmd)
      exact ⟨s',step.trans ran,left,suffix'.trans suffix⟩
    · exact absurd begins (none _)

/-! What is accepted is derived. -/

/-- A command that has been parsed from s, up to s'. -/
structure Parsed (line : List Byte) (symbol : Symbol) (s : List Byte) (cmd : Cmd) (s' : List Byte) : Prop where
  suffix : s' <:+ s
  derives : ∃ ts, tokens s = ts ++ tokens s' ∧ Derives symbol ts (cmd.tree line)
  sound : cmd.Sound line

def Sane (line : List Byte) (symbol : Symbol) (least fuel : Nat) (parse : List Byte → Except Stop (Cmd × List Byte)) : Prop :=
  ∀ s, s <:+ line → (4 * s.length + least ≤ fuel → Answers (parse s)) ∧ ∀ cmd s', parse s = .ok (cmd,s') → Parsed line symbol s cmd s'

theorem parseline_sane (pipe : Sane line .pipe 3 fuel (parsepipe line.length fuel)) (rest : Sane line .line 4 fuel (parseline line.length fuel)) :
    Sane line .line 4 (fuel + 1) (parseline line.length (fuel + 1)) := by
  intro s inside
  obtain ⟨answers,sound⟩ := pipe s inside
  rw [parseline]
  cases first : parsepipe line.length fuel s with
  | error e =>
    refine ⟨fun enough => ?_,nofun⟩
    rw [first] at answers
    obtain ⟨reason,rfl⟩ := (answers (by omega)).error
    exact .inr ⟨reason,rfl⟩
  | ok pair =>
    obtain ⟨cmd₁,s₁⟩ := pair
    obtain ⟨suffix₁,⟨ts₁,split₁,derives₁⟩,sound₁⟩ := sound cmd₁ s₁ first
    have length₁ := suffix₁.length_le
    dsimp only
    obtain ⟨answers₂,sound₂⟩ := @parsebacks_sound line s₁ fuel cmd₁
    cases second : parsebacks line.length fuel cmd₁ s₁ with
    | error e =>
      refine ⟨fun enough => ?_,nofun⟩
      rw [second] at answers₂
      obtain ⟨reason,rfl⟩ := (answers₂ (by omega)).error
      exact .inr ⟨reason,rfl⟩
    | ok pair =>
      obtain ⟨cmd₂,s₂⟩ := pair
      obtain ⟨n,rfl,split₂,suffix₂⟩ := sound₂ cmd₂ s₂ second
      have length₂ := suffix₂.length_le
      have well := sound_backs sound₁ n
      dsimp only
      rw [show ([0x3B] : List Byte) = [Token.semicolon.code] from rfl,peek_single (.inr (.inr (.inl rfl))) s₂]
      dsimp only
      by_cases more : (tokens s₂).head? = some .semicolon
      · obtain ⟨ts,next⟩ := head?_eq_some_iff.mp more
        obtain ⟨q,eq,s₃,taken,left,suffix₃,shorter,-⟩ := @gettoken_cons s₂ _ _ line.length next
        rw [if_pos (decide_eq_true more),gettoken_skipSpace,taken]
        dsimp only
        obtain ⟨answers₃,sound₃⟩ := rest s₃ (suffix₃.trans (suffix₂.trans (suffix₁.trans inside)))
        refine ⟨fun enough => (answers₃ (by omega)).map _,fun cmd s' same => ?_⟩
        obtain ⟨⟨right,s₄⟩,third,result⟩ := map_ok same
        obtain ⟨rfl,rfl⟩ := Prod.mk.inj result
        obtain ⟨suffix₄,⟨us,split₄,derives₄⟩,sound₄⟩ := sound₃ right s₄ third
        refine ⟨suffix₄.trans (suffix₃.trans (suffix₂.trans suffix₁)),⟨ts₁ ++ (replicate n .ampersand ++ .semicolon :: us),?_,?_⟩,well,sound₄⟩
        · rw [split₁,split₂,next,← left,split₄]
          simp only [append_assoc,cons_append]
        · rw [Cmd.tree,tree_backs]
          exact .list derives₁ n derives₄
      · rw [if_neg (by rw [decide_eq_true_iff]; exact more)]
        refine ⟨fun _ => .inl ⟨_,rfl⟩,fun cmd s' same => ?_⟩
        cases same
        refine ⟨(skipSpace_suffix s₂).trans (suffix₂.trans suffix₁),⟨ts₁ ++ replicate n .ampersand,?_,?_⟩,well⟩
        · rw [split₁,split₂,tokens_skipSpace,append_assoc]
        · rw [tree_backs]
          exact .line derives₁ n

theorem parsepipe_sane (exec : Sane line .exec 2 fuel (parseexec line.length fuel)) (rest : Sane line .pipe 3 fuel (parsepipe line.length fuel)) :
    Sane line .pipe 3 (fuel + 1) (parsepipe line.length (fuel + 1)) := by
  intro s inside
  obtain ⟨answers,sound⟩ := exec s inside
  rw [parsepipe]
  cases first : parseexec line.length fuel s with
  | error e =>
    refine ⟨fun enough => ?_,nofun⟩
    rw [first] at answers
    obtain ⟨reason,rfl⟩ := (answers (by omega)).error
    exact .inr ⟨reason,rfl⟩
  | ok pair =>
    obtain ⟨cmd₁,s₁⟩ := pair
    obtain ⟨suffix₁,⟨ts₁,split₁,derives₁⟩,sound₁⟩ := sound cmd₁ s₁ first
    have length₁ := suffix₁.length_le
    dsimp only
    rw [show ([0x7C] : List Byte) = [Token.bar.code] from rfl,peek_single (.inl rfl) s₁]
    dsimp only
    by_cases more : (tokens s₁).head? = some .bar
    · obtain ⟨ts,next⟩ := head?_eq_some_iff.mp more
      obtain ⟨q,eq,s₂,taken,left,suffix₂,shorter,-⟩ := @gettoken_cons s₁ _ _ line.length next
      rw [if_pos (decide_eq_true more),gettoken_skipSpace,taken]
      dsimp only
      obtain ⟨answers₂,sound₂⟩ := rest s₂ (suffix₂.trans (suffix₁.trans inside))
      refine ⟨fun enough => (answers₂ (by omega)).map _,fun cmd s' same => ?_⟩
      obtain ⟨⟨right,s₃⟩,second,result⟩ := map_ok same
      obtain ⟨rfl,rfl⟩ := Prod.mk.inj result
      obtain ⟨suffix₃,⟨us,split₃,derives₃⟩,sound₃⟩ := sound₂ right s₃ second
      refine ⟨suffix₃.trans (suffix₂.trans suffix₁),⟨ts₁ ++ .bar :: us,?_,.pipe derives₁ derives₃⟩,sound₁,sound₃⟩
      rw [split₁,next,← left,split₃,append_assoc]
      rfl
    · rw [if_neg (by rw [decide_eq_true_iff]; exact more)]
      refine ⟨fun _ => .inl ⟨_,rfl⟩,fun cmd s' same => ?_⟩
      cases same
      refine ⟨(skipSpace_suffix s₁).trans suffix₁,⟨ts₁,?_,.exec derives₁⟩,sound₁⟩
      rw [split₁,tokens_skipSpace]

theorem parseexec_sane (block : Sane line .exec 1 fuel (parseblock line.length fuel)) :
    Sane line .exec 2 (fuel + 1) (parseexec line.length (fuel + 1)) := by
  intro s inside
  have length := (skipSpace_suffix s).length_le
  rw [parseexec,show ([0x28] : List Byte) = [Token.left.code] from rfl,peek_single (.inr (.inr (.inr (.inl rfl)))) s]
  dsimp only
  by_cases opens : (tokens s).head? = some .left
  · rw [if_pos (decide_eq_true opens)]
    obtain ⟨answers,sound⟩ := block (skipSpace s) ((skipSpace_suffix s).trans inside)
    refine ⟨fun enough => answers (by omega),fun cmd s' same => ?_⟩
    obtain ⟨suffix,⟨ts,split,derives⟩,well⟩ := sound cmd s' same
    exact ⟨suffix.trans (skipSpace_suffix s),⟨ts,by rw [← tokens_skipSpace s,split],derives⟩,well⟩
  rw [if_neg (by rw [decide_eq_true_iff]; exact opens)]
  obtain ⟨answers,sound⟩ := @parseredirs_sound line (skipSpace s) fuel [] ((skipSpace_suffix s).trans inside)
  cases first : parseredirs line.length fuel [] (skipSpace s) with
  | error e =>
    refine ⟨fun enough => ?_,nofun⟩
    rw [first] at answers
    obtain ⟨reason,rfl⟩ := (answers (by omega)).error
    exact .inr ⟨reason,rfl⟩
  | ok pair =>
    obtain ⟨redirs,s₁⟩ := pair
    obtain ⟨new,ds,rfl,shown,split,suffix,-⟩ := sound redirs s₁ first
    rw [tokens_skipSpace] at split
    have length₁ := suffix.length_le
    obtain ⟨answers₁,sound₁⟩ := @parseargs_sound line s₁ fuel redirs ds [] (suffix.trans ((skipSpace_suffix s).trans inside)) (by decide) nofun shown
    refine ⟨fun enough => answers₁ (by omega),fun cmd s' same => ?_⟩
    obtain ⟨parts,split',suffix',well,tree⟩ := sound₁ cmd s' same
    refine ⟨suffix'.trans (suffix.trans (skipSpace_suffix s)),⟨(ds.map Part.redir ++ parts).flatMap Part.tokens,?_,?_⟩,well⟩
    · rw [split,split',flatMap_append,flatMap_redir,append_assoc]
    · have derived := Derives.simple (ds.map Part.redir ++ parts)
      rw [filterMap_append,filterMap_append,words_redir,redirs_redir] at derived
      rw [tree]
      exact derived

theorem parseblock_sane (inner : Sane line .line 4 fuel (parseline line.length fuel)) :
    Sane line .exec 1 (fuel + 1) (parseblock line.length (fuel + 1)) := by
  intro s inside
  rw [parseblock,show ([0x28] : List Byte) = [Token.left.code] from rfl,peek_single (.inr (.inr (.inr (.inl rfl)))) s]
  dsimp only
  by_cases opens : (tokens s).head? = some .left
  swap
  · rw [if_pos (by rw [decide_eq_true_iff]; exact opens)]
    exact ⟨fun _ => .inr ⟨_,rfl⟩,nofun⟩
  obtain ⟨ts,next⟩ := head?_eq_some_iff.mp opens
  obtain ⟨q,eq,s₁,taken,left,suffix₁,shorter,-⟩ := @gettoken_cons s _ _ line.length next
  rw [if_neg (by rw [decide_eq_true_iff]; exact not_not.mpr opens),gettoken_skipSpace,taken]
  dsimp only
  obtain ⟨answers,sound⟩ := inner s₁ (suffix₁.trans inside)
  cases first : parseline line.length fuel s₁ with
  | error e =>
    refine ⟨fun enough => ?_,nofun⟩
    rw [first] at answers
    obtain ⟨reason,rfl⟩ := (answers (by omega)).error
    exact .inr ⟨reason,rfl⟩
  | ok pair =>
    obtain ⟨cmd₂,s₂⟩ := pair
    obtain ⟨suffix₂,⟨ts₂,split₂,derives₂⟩,sound₂⟩ := sound cmd₂ s₂ first
    have length₂ := suffix₂.length_le
    dsimp only
    rw [show ([0x29] : List Byte) = [Token.right.code] from rfl,peek_single (.inr (.inr (.inr (.inr rfl)))) s₂]
    dsimp only
    by_cases closes : (tokens s₂).head? = some .right
    swap
    · rw [if_pos (by rw [decide_eq_true_iff]; exact closes)]
      exact ⟨fun _ => .inr ⟨_,rfl⟩,nofun⟩
    obtain ⟨us,next₂⟩ := head?_eq_some_iff.mp closes
    obtain ⟨q,eq,s₃,taken₃,left₃,suffix₃,shorter₃,-⟩ := @gettoken_cons s₂ _ _ line.length next₂
    rw [if_neg (by rw [decide_eq_true_iff]; exact not_not.mpr closes),gettoken_skipSpace,taken₃]
    dsimp only
    obtain ⟨answers₃,sound₃⟩ := @parseredirs_sound line s₃ fuel [] (suffix₃.trans (suffix₂.trans (suffix₁.trans inside)))
    refine ⟨fun enough => (answers₃ (by omega)).map _,fun cmd s' same => ?_⟩
    obtain ⟨⟨redirs,s₄⟩,second,result⟩ := map_ok same
    obtain ⟨rfl,rfl⟩ := Prod.mk.inj result
    obtain ⟨new,ds,rfl,shown,split₄,suffix₄,-⟩ := sound₃ redirs s₄ second
    refine ⟨suffix₄.trans (suffix₃.trans (suffix₂.trans suffix₁)),⟨.left :: (ts₂ ++ .right :: ds.flatMap Redirection.tokens),?_,?_⟩,
      sound_wrap shown sound₂⟩
    · rw [next,← left,split₂,next₂,← left₃,split₄]
      simp only [append_assoc,cons_append]
    · change Derives _ _ ((wrap cmd₂ redirs).tree line)
      rw [tree_wrap shown]
      exact .block derives₂ ds

theorem parse_sane (line : List Byte) (fuel : Nat) : Sane line .line 4 fuel (parseline line.length fuel) ∧
    Sane line .pipe 3 fuel (parsepipe line.length fuel) ∧ Sane line .exec 2 fuel (parseexec line.length fuel) ∧
      Sane line .exec 1 fuel (parseblock line.length fuel) := by
  induction fuel with
  | zero => exact ⟨fun s _ => ⟨fun enough => absurd enough (by omega),nofun⟩,fun s _ => ⟨fun enough => absurd enough (by omega),nofun⟩,
      fun s _ => ⟨fun enough => absurd enough (by omega),nofun⟩,fun s _ => ⟨fun enough => absurd enough (by omega),nofun⟩⟩
  | succ fuel ih =>
    obtain ⟨lineSane,pipeSane,execSane,blockSane⟩ := ih
    exact ⟨parseline_sane pipeSane lineSane,parsepipe_sane execSane pipeSane,parseexec_sane blockSane,parseblock_sane lineSane⟩

/-! What is derived is accepted. -/

def parse : Symbol → (es fuel : Nat) → (s : List Byte) → Except Stop (Cmd × List Byte)
  | .line => parseline
  | .pipe => parsepipe
  | .exec => parseexec

def least : Symbol → Nat
  | .line => 4
  | .pipe => 3
  | .exec => 2

def Follows : Symbol → List Token → Prop
  | .line, us => us = [] ∨ ∃ us', us = .right :: us'
  | .pipe, us => Stops us ∧ ∀ us', us ≠ .bar :: us'
  | .exec, us => Stops us

/-- The parser takes all of the tokens of a derivation, and returns its tree. -/
def Complete (line : List Byte) (symbol : Symbol) (ts : List Token) (tree : Tree) : Prop :=
  ∀ s us fuel, s <:+ line → tokens s = ts ++ us → tree.Small → Follows symbol us → 4 * s.length + least symbol ≤ fuel →
    ∃ cmd s', parse symbol line.length fuel s = .ok (cmd,s') ∧ tokens s' = us ∧ s' <:+ s ∧ cmd.tree line = tree

theorem head_ne_left {parts : List Part} (stops : Stops us) : (parts.flatMap Part.tokens ++ us).head? ≠ some .left := by
  cases parts with
  | nil =>
    cases us with
    | nil => nofun
    | cons t us =>
      intro same
      cases same
      cases stops _ _ rfl
  | cons part parts =>
    cases part with
    | word w => nofun
    | redir d =>
      obtain ⟨kind,file⟩ := d
      cases kind <;> nofun

theorem complete_simple (parts : List Part) : Complete line .exec (parts.flatMap Part.tokens)
    (around (.exec (parts.filterMap Part.word?)) (parts.filterMap Part.redir?)) := by
  intro s us fuel inside split small stops enough
  obtain ⟨fuel,rfl⟩ := Nat.exists_eq_succ_of_ne_zero (show fuel ≠ 0 by simp only [least] at enough; omega)
  have length := (skipSpace_suffix s).length_le
  have closed : (tokens s).head? ≠ some .left := by
    rw [split]
    exact head_ne_left stops
  simp only [least] at enough
  rw [small_around] at small
  rw [parse,parseexec,show ([0x28] : List Byte) = [Token.left.code] from rfl,peek_single (.inr (.inr (.inr (.inl rfl)))) s]
  dsimp only
  rw [if_neg (by rw [decide_eq_true_iff]; exact closed)]
  obtain ⟨ds,rest,rfl,start⟩ := leading parts
  have plain : Plain (rest.flatMap Part.tokens ++ us) := by
    rcases start with rfl | ⟨w,rest,rfl⟩
    · exact Stops.plain stops
    · intro kind us' same
      cases kind <;> cases same
  rw [flatMap_append,flatMap_redir,append_assoc,← tokens_skipSpace] at split
  obtain ⟨new,s₁,ran,shown,left,suffix⟩ := parseredirs_complete ((skipSpace_suffix s).trans inside) split plain (show (skipSpace s).length < fuel by omega) []
  rw [Tree.Small,filterMap_append,words_redir,nil_append] at small
  obtain ⟨cmd,s',ran',left',suffix',tree⟩ := @parseargs_complete line s₁ fuel us ([] ++ new) ds [] rest (suffix.trans ((skipSpace_suffix s).trans inside)) left start
    stops ((Nat.zero_add _).trans_lt small) shown (Nat.lt_of_le_of_lt suffix.length_le (by omega))
  refine ⟨cmd,s',?_,left',suffix'.trans (suffix.trans (skipSpace_suffix s)),?_⟩
  · rw [ran]
    exact ran'
  · rw [tree,filterMap_append,filterMap_append,words_redir,redirs_redir]
    rfl

theorem complete_block {tree : Tree} (inner : Complete line .line ts tree) (ds : List Redirection) :
    Complete line .exec (.left :: (ts ++ .right :: ds.flatMap Redirection.tokens)) (around tree ds) := by
  intro s us fuel inside split small stops enough
  simp only [least] at enough
  obtain ⟨fuel,rfl⟩ : ∃ k, fuel = k + 2 := ⟨fuel - 2,by omega⟩
  have length := (skipSpace_suffix s).length_le
  have opens : (tokens s).head? = some .left := by
    rw [split]
    rfl
  have first : tokens (skipSpace s) = .left :: (ts ++ .right :: (ds.flatMap Redirection.tokens ++ us)) := by
    rw [tokens_skipSpace,split]
    simp only [append_assoc,cons_append]
  have opens' : (tokens (skipSpace s)).head? = some .left := by
    rw [first]
    rfl
  obtain ⟨q,eq,s₁,taken,left,suffix₁,shorter,-⟩ := @gettoken_cons (skipSpace s) _ _ line.length first
  have inside₁ := suffix₁.trans ((skipSpace_suffix s).trans inside)
  obtain ⟨cmd,s₂,ran,left₂,suffix₂,same⟩ := inner s₁ _ fuel inside₁ left ((small_around ds).mp small) (.inr ⟨_,rfl⟩) (by simp only [least]; omega)
  have closes : (tokens s₂).head? = some .right := by
    rw [left₂]
    rfl
  obtain ⟨q,eq,s₃,taken₃,left₃,suffix₃,shorter₃,-⟩ := @gettoken_cons s₂ _ _ line.length left₂
  have length₂ := suffix₂.length_le
  obtain ⟨new,s₄,ran₄,shown,left₄,suffix₄⟩ := @parseredirs_complete line s₃ fuel us ds (suffix₃.trans (suffix₂.trans inside₁)) left₃ (Stops.plain stops)
    (by omega) []
  refine ⟨wrap cmd ([] ++ new),s₄,?_,left₄,suffix₄.trans (suffix₃.trans (suffix₂.trans (suffix₁.trans (skipSpace_suffix s)))),?_⟩
  · rw [parse,parseexec,show ([0x28] : List Byte) = [Token.left.code] from rfl,peek_single (.inr (.inr (.inr (.inl rfl)))) s]
    dsimp only
    rw [if_pos (decide_eq_true opens),parseblock,show ([0x28] : List Byte) = [Token.left.code] from rfl,
      peek_single (.inr (.inr (.inr (.inl rfl)))) (skipSpace s)]
    dsimp only
    rw [if_neg (by rw [decide_eq_true_iff]; exact not_not.mpr opens'),gettoken_skipSpace,taken]
    dsimp only
    rw [show parseline line.length fuel s₁ = .ok (cmd,s₂) from ran]
    dsimp only
    rw [show ([0x29] : List Byte) = [Token.right.code] from rfl,peek_single (.inr (.inr (.inr (.inr rfl)))) s₂]
    dsimp only
    rw [if_neg (by rw [decide_eq_true_iff]; exact not_not.mpr closes),gettoken_skipSpace,taken₃]
    dsimp only
    rw [ran₄]
    rfl
  · rw [nil_append,tree_wrap shown,same]

theorem complete_exec {tree : Tree} (only : Complete line .exec ts tree) : Complete line .pipe ts tree := by
  intro s us fuel inside split small follows enough
  simp only [least] at enough
  obtain ⟨fuel,rfl⟩ : ∃ k, fuel = k + 1 := ⟨fuel - 1,by omega⟩
  obtain ⟨cmd,s₁,ran,left,suffix,same⟩ := only s us fuel inside split small follows.1 (by simp only [least]; omega)
  refine ⟨cmd,skipSpace s₁,?_,(tokens_skipSpace s₁).trans left,(skipSpace_suffix s₁).trans suffix,same⟩
  have ends : (tokens s₁).head? ≠ some .bar := by
    rw [left]
    intro bar
    obtain ⟨us',same⟩ := head?_eq_some_iff.mp bar
    exact follows.2 us' same
  rw [parse,parsepipe,show parseexec line.length fuel s = .ok (cmd,s₁) from ran]
  dsimp only
  rw [show ([0x7C] : List Byte) = [Token.bar.code] from rfl,peek_single (.inl rfl) s₁]
  dsimp only
  rw [if_neg (by rw [decide_eq_true_iff]; exact ends)]

theorem complete_pipe {vs : List Token} {left right : Tree} (first : Complete line .exec ts left) (second : Complete line .pipe vs right) :
    Complete line .pipe (ts ++ .bar :: vs) (.pipe left right) := by
  intro s us fuel inside split small follows enough
  simp only [least] at enough
  obtain ⟨fuel,rfl⟩ : ∃ k, fuel = k + 1 := ⟨fuel - 1,by omega⟩
  rw [append_assoc,cons_append] at split
  obtain ⟨cmd,s₁,ran,left₁,suffix₁,same⟩ := first s _ fuel inside split small.1 (fun t us' begins => by cases begins; rfl) (by simp only [least]; omega)
  have length₁ := suffix₁.length_le
  obtain ⟨q,eq,s₂,taken,left₂,suffix₂,shorter,-⟩ := @gettoken_cons s₁ _ _ line.length left₁
  obtain ⟨cmd',s₃,ran',left₃,suffix₃,same'⟩ := second s₂ us fuel (suffix₂.trans (suffix₁.trans inside)) left₂ small.2 follows (by simp only [least]; omega)
  refine ⟨.pipe cmd cmd',s₃,?_,left₃,suffix₃.trans (suffix₂.trans suffix₁),by rw [Cmd.tree,same,same']⟩
  have bar : (tokens s₁).head? = some .bar := by
    rw [left₁]
    rfl
  rw [parse,parsepipe,show parseexec line.length fuel s = .ok (cmd,s₁) from ran]
  dsimp only
  rw [show ([0x7C] : List Byte) = [Token.bar.code] from rfl,peek_single (.inl rfl) s₁]
  dsimp only
  rw [if_pos (decide_eq_true bar),gettoken_skipSpace,taken]
  dsimp only
  rw [show parsepipe line.length fuel s₂ = .ok (cmd',s₃) from ran']
  rfl

theorem complete_backs {tree : Tree} (only : Complete line .pipe ts tree) {n : Nat} (inside : s <:+ line)
    (split : tokens s = ts ++ (replicate n .ampersand ++ us)) (small : tree.Small) (follows : Follows .pipe us)
    (other : ∀ us', us ≠ .ampersand :: us') (enough : 4 * s.length + 3 ≤ fuel) : ∃ cmd s₁ s₂, parsepipe line.length fuel s = .ok (cmd,s₁) ∧
      parsebacks line.length fuel cmd s₁ = .ok (Cmd.back^[n] cmd,s₂) ∧ tokens s₂ = us ∧ s₂ <:+ s ∧
        (Cmd.back^[n] cmd).tree line = Tree.back^[n] tree := by
  have next : Follows .pipe (replicate n .ampersand ++ us) := by
    cases n with
    | zero => exact follows
    | succ n =>
      refine ⟨fun t us' begins => ?_,fun us' begins => ?_⟩
      · cases begins
        rfl
      · cases begins
  obtain ⟨cmd,s₁,ran,left,suffix,same⟩ := only s _ fuel inside split small next (by simp only [least]; omega)
  obtain ⟨s₂,ran₂,left₂,suffix₂⟩ := @parsebacks_complete line s₁ fuel us n left other (Nat.lt_of_le_of_lt suffix.length_le (by omega)) cmd
  exact ⟨cmd,s₁,s₂,ran,ran₂,left₂,suffix₂.trans suffix,by rw [tree_backs,same]⟩

theorem complete_line {tree : Tree} (only : Complete line .pipe ts tree) (n : Nat) :
    Complete line .line (ts ++ replicate n .ampersand) (Tree.back^[n] tree) := by
  intro s us fuel inside split small follows enough
  simp only [least] at enough
  obtain ⟨fuel,rfl⟩ : ∃ k, fuel = k + 1 := ⟨fuel - 1,by omega⟩
  have ends : Follows .pipe us ∧ (∀ us', us ≠ .ampersand :: us') ∧ us.head? ≠ some .semicolon := by
    rcases follows with rfl | ⟨us',rfl⟩
    · exact ⟨⟨nofun,nofun⟩,nofun,nofun⟩
    · refine ⟨⟨fun t us begins => ?_,nofun⟩,nofun,nofun⟩
      cases begins
      rfl
  rw [append_assoc] at split
  obtain ⟨cmd,s₁,s₂,ran,ran₂,left,suffix,same⟩ := complete_backs only inside split ((small_backs n).mp small) ends.1 ends.2.1
    (show 4 * s.length + 3 ≤ fuel by omega)
  refine ⟨Cmd.back^[n] cmd,skipSpace s₂,?_,(tokens_skipSpace s₂).trans left,(skipSpace_suffix s₂).trans suffix,same⟩
  rw [parse,parseline,ran]
  dsimp only
  rw [ran₂]
  dsimp only
  rw [show ([0x3B] : List Byte) = [Token.semicolon.code] from rfl,peek_single (.inr (.inr (.inl rfl))) s₂]
  dsimp only
  rw [if_neg (by rw [decide_eq_true_iff,left]; exact ends.2.2)]

theorem complete_list {vs : List Token} {left right : Tree} (first : Complete line .pipe ts left) (n : Nat) (second : Complete line .line vs right) :
    Complete line .line (ts ++ (replicate n .ampersand ++ .semicolon :: vs)) (.list (Tree.back^[n] left) right) := by
  intro s us fuel inside split small follows enough
  simp only [least] at enough
  obtain ⟨fuel,rfl⟩ : ∃ k, fuel = k + 1 := ⟨fuel - 1,by omega⟩
  rw [append_assoc,append_assoc,cons_append] at split
  have next : Follows .pipe (.semicolon :: (vs ++ us)) := by
    refine ⟨fun t us' begins => ?_,nofun⟩
    cases begins
    rfl
  obtain ⟨cmd,s₁,s₂,ran,ran₂,left₂,suffix₂,same⟩ := complete_backs first inside split ((small_backs n).mp small.1) next nofun
    (show 4 * s.length + 3 ≤ fuel by omega)
  have length₂ := suffix₂.length_le
  obtain ⟨q,eq,s₃,taken,left₃,suffix₃,shorter,-⟩ := @gettoken_cons s₂ _ _ line.length left₂
  obtain ⟨cmd',s₄,ran',left₄,suffix₄,same'⟩ := second s₃ us fuel (suffix₃.trans (suffix₂.trans inside)) left₃ small.2 follows (by simp only [least]; omega)
  refine ⟨.list (Cmd.back^[n] cmd) cmd',s₄,?_,left₄,suffix₄.trans (suffix₃.trans suffix₂),by rw [Cmd.tree,same,same']⟩
  have semicolon : (tokens s₂).head? = some .semicolon := by
    rw [left₂]
    rfl
  rw [parse,parseline,ran]
  dsimp only
  rw [ran₂]
  dsimp only
  rw [show ([0x3B] : List Byte) = [Token.semicolon.code] from rfl,peek_single (.inr (.inr (.inl rfl))) s₂]
  dsimp only
  rw [if_pos (decide_eq_true semicolon),gettoken_skipSpace,taken]
  dsimp only
  rw [show parseline line.length fuel s₃ = .ok (cmd',s₄) from ran']
  rfl

theorem parse_complete {symbol : Symbol} {tree : Tree} (derives : Derives symbol ts tree) : Complete line symbol ts tree := by
  induction derives with
  | simple parts => exact complete_simple parts
  | block inner redirs ih => exact complete_block ih redirs
  | exec only ih => exact complete_exec ih
  | pipe first second ih₁ ih₂ => exact complete_pipe ih₁ ih₂
  | line only n ih => exact complete_line ih n
  | list first n second ih₁ ih₂ => exact complete_list ih₁ n ih₂

end Xv6.Sh
