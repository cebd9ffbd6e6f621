import EmbedScript.Token.Lexeme

/-!
String literals, one step at a time: what one step keeps is kept by the whole reading.
-/

namespace EmbedScript.Lexeme

open List

inductive StringStep where
  | ends (stop : Except LexError Nat) (rest : List Char)
  | more (r : Reading) (rest : List Char)

def stringStep (q : Quoting) (r : Reading) : List Char → StringStep
  | [] => .ends (.error (r.splice.elim q.unterminated fun s => .unterminatedString s.line)) []
  | c :: rest =>
    match r.splice with
    | some s =>
      if c == '\n' then .ends (.error (.unterminatedString s.line)) rest
      else if c == '\x7d' && s.depth == 0 && s.inner.isNone then
        .more
          { line := r.line
            pieces := .splice s.source.reverse s.line :: .text r.text.reverse :: r.pieces }
          rest
      else match s.add q c rest.head? with
        | .error e => .ends (.error e) rest
        | .ok s => .more { r with splice := some s } rest
    | none =>
      if c == q.quote then
        if !q.triple then .ends (.ok r.line) rest
        else if rest.take 2 == [q.quote,q.quote] then .ends (.ok r.line) (rest.drop 2)
        else .more (r.add c) rest
      else if c == '\n' && !q.triple then .ends (.error (.unterminatedString q.line)) rest
      else if c == '\\' && !q.raw then
        match rest with
        | [] => .ends (.error q.unterminated) []
        | e :: tail => .more (r.escape e) tail
      else if c == '\x7b' && q.format then
        if rest.head? == some '\x7b' then .more (r.add c) rest.tail
        else .more { r with splice := some ⟨[],r.line,0,none⟩ } rest
      else if c == '\x7d' && q.format then
        .more (r.add c) (if rest.head? == some '\x7d' then rest.tail else rest)
      else .more { r.add c with line := if c == '\n' then r.line + 1 else r.line } rest

theorem readString_eq (q : Quoting) (r : Reading) (cs : List Char) : readString q r cs = match stringStep q r cs with
      | .ends stop rest => (r.close,stop,rest)
      | .more r rest => readString q r rest := by
  cases cs with
  | nil =>
    rw [readString.eq_def,stringStep.eq_def]
    cases r.splice <;> rfl
  | cons c rest =>
    rw [readString.eq_def,stringStep.eq_def]
    cases r.splice with
    | some s =>
      simp only
      split
      · rfl
      split
      · rfl
      cases s.add q c rest.head? <;> rfl
    | none =>
      simp only
      split
      · split
        · rfl
        rcases rest with _ | ⟨a,_ | ⟨b,tail⟩⟩
        · rfl
        · simp
        · by_cases closing : a = q.quote ∧ b = q.quote <;> simp [closing]
      split
      · rfl
      split
      · cases rest <;> rfl
      split
      · cases rest with
        | nil => rfl
        | cons d tail => by_cases again : d = '\x7b' <;> simp [again]
      split
      · cases rest with
        | nil => rfl
        | cons d tail => by_cases again : d = '\x7d' <;> simp [again]
      · rfl

def literal (q : Quoting) (r : Reading) (cs : List Char) : Lexeme × List Char :=
  let read := readString q r cs
  (.str read.1 read.2.1,read.2.2)

theorem readLiteral_eq (quote : Char) (format raw : Bool) (line : Nat) (cs : List Char) : readLiteral quote format raw line cs =
      if cs.take 2 == [quote,quote] then literal ⟨quote,true,format,raw,line⟩ { line } (cs.drop 2)
      else literal ⟨quote,false,format,raw,line⟩ { line } cs := by
  rcases cs with _ | ⟨a,_ | ⟨b,cs⟩⟩
  · rfl
  · simp [readLiteral,literal]
  · by_cases long : a = quote ∧ b = quote <;> simp [readLiteral,literal,long]

namespace StringStep

def rest : StringStep → List Char
  | ends _ rest => rest
  | more _ rest => rest

def before (further : List Char) : StringStep → StringStep
  | ends stop rest => ends stop (rest ++ further)
  | more r rest => more r (rest ++ further)

end StringStep

theorem getLast?_suffix {cs rest : List Char} (suffix : rest <:+ cs) (left : rest ≠ []) : rest.getLast? = cs.getLast? := by
  obtain ⟨front,rfl⟩ := suffix
  rw [getLast?_append,getLast?_eq_some_getLast left]
  rfl

section Steps

variable (q : Quoting) (r : Reading)

theorem stringStep_suffix (c : Char) (cs : List Char) : (stringStep q r (c :: cs)).rest <:+ cs := by
  simp only [stringStep]
  cases r.splice with
  | some s =>
    simp only
    repeat' split
    all_goals exact suffix_refl cs
  | none =>
    repeat' split
    all_goals
      first
        | exact suffix_refl _
        | exact drop_suffix ..
        | exact tail_suffix _
        | exact suffix_cons ..

theorem stringStep_shorter {next q r}
    (taken : stringStep q r cs = .more next rest) : rest.length < cs.length := by
  cases cs with
  | nil => cases taken
  | cons c cs =>
    have suffix := stringStep_suffix q r c cs
    rw [taken] at suffix
    exact Nat.lt_succ_of_le suffix.length_le

theorem stringStep_append (mark : q.quote ≠ '\n') (ended : cs.getLast? = some '\n') (further : List Char) :
    stringStep q r (cs ++ further) = (stringStep q r cs).before further := by
  rcases cs with _ | ⟨c,_ | ⟨a,cs⟩⟩
  · contradiction
  · obtain rfl : c = '\n' := by simpa using ended
    simp only [stringStep,cons_append]
    cases r.splice with
    | some s => rfl
    | none =>
      have other : ('\n' == q.quote) = false := by simpa using mark.symm
      simp only [other]
      cases q.triple <;> rfl
  · simp only [stringStep,cons_append]
    cases r.splice with
    | some s =>
      simp only [head?_cons]
      repeat' split
      all_goals rfl
    | none =>
      simp only [tail_cons]
      split
      · split
        · rfl
        cases cs with
        | nil =>
          obtain rfl : a = '\n' := by simpa using ended
          simp [mark.symm,StringStep.before]
        | cons b cs => by_cases closing : a = q.quote ∧ b = q.quote <;> simp [closing,StringStep.before]
      split
      · rfl
      split
      · rfl
      split
      · by_cases again : a = '\x7b' <;> simp [again,StringStep.before]
      split
      · by_cases again : a = '\x7d' <;> simp [again,StringStep.before]
      · rfl

-- The literal ends inside the text, or it is open where the text ends. By induction on the length of
-- the text: as long as something is left of it, it ends in the line break.
theorem readString_append (mark : q.quote ≠ '\n') (ended : cs.getLast? = some '\n') : (∃ pieces stop rest, rest <:+ cs ∧
      ∀ further, readString q r (cs ++ further) = (pieces,stop,rest ++ further)) ∨
    ∃ next, ∀ further, readString q r (cs ++ further) = readString q next further := by
  induction length : cs.length using Nat.strongRecOn generalizing r cs with
  | ind n ih =>
  cases cs with
  | nil => contradiction
  | cons c cs =>
    have suffix := stringStep_suffix q r c cs
    have step := stringStep_append q r mark ended
    cases taken : stringStep q r (c :: cs) with
    | ends stop rest =>
      rw [taken] at suffix step
      refine .inl ⟨r.close,stop,rest,suffix.trans (suffix_cons c cs),fun further => ?_⟩
      rw [readString_eq,step]
      rfl
    | more next rest =>
      rw [taken] at suffix step
      replace suffix : rest <:+ cs := suffix
      have onward (further : List Char) : readString q r (c :: cs ++ further) = readString q next (rest ++ further) := by
        rw [readString_eq,step]
        rfl
      by_cases left : rest = []
      · exact .inr ⟨next,fun further => by rw [onward,left,nil_append]⟩
      have behind := suffix.trans (suffix_cons c cs)
      have less : rest.length < n := length ▸ stringStep_shorter taken
      rcases ih _ less next ((getLast?_suffix behind left).trans ended) rfl with
        ⟨pieces,stop,after,inside,read⟩ | ⟨further,read⟩
      · exact .inl ⟨pieces,stop,after,inside.trans behind,fun further => by rw [onward,read]⟩
      · exact .inr ⟨further,fun further => by rw [onward,read]⟩

end Steps

end EmbedScript.Lexeme

-- Expressions in literals

namespace EmbedScript

open List

def Piece.Within (n : Nat) : Piece → Prop
  | .text _ => True
  | .splice source _ => source.length < n

namespace Lexeme

-- All expressions read so far have fewer than `n` characters, and so has the one being read, even if
-- the rest belongs to it.
structure Reading.Within (n : Nat) (r : Reading) (cs : List Char) : Prop where
  pieces : ∀ p ∈ r.pieces, p.Within n
  splice : ∀ s ∈ r.splice, s.source.length + cs.length < n
  text : cs.length < n

theorem Splice.add_source {s next : Splice}
    (added : s.add q c look = .ok next) : next.source = c :: s.source := by
  unfold Splice.add at added
  repeat' split at added
  all_goals cases added
  all_goals first | rfl | split <;> rfl

theorem Reading.escape_kept (r : Reading) (c : Char) : (r.escape c).pieces = r.pieces ∧ (r.escape c).splice = r.splice := by
  unfold Reading.escape
  repeat' split
  all_goals exact ⟨rfl,rfl⟩

theorem Reading.Within.step {r next} (within : r.Within n cs)
    (taken : stringStep q r cs = .more next rest) : next.Within n rest := by
  cases cs with
  | nil => cases taken
  | cons c cs =>
    have suffix := stringStep_suffix q r c cs
    rw [taken] at suffix
    have less : rest.length ≤ cs.length := suffix.length_le
    obtain ⟨pieces,pending,text⟩ := within
    simp only [length_cons] at pending text
    simp only [stringStep] at taken
    cases open' : r.splice with
    | some s =>
      have size := pending s open'
      simp only [open'] at taken
      split at taken
      · cases taken
      split at taken
      · cases taken
        refine ⟨forall_mem_cons.mpr ⟨?_,forall_mem_cons.mpr ⟨trivial,pieces⟩⟩,nofun,by omega⟩
        simp only [Piece.Within,length_reverse]
        omega
      cases added : s.add q c cs.head? with
      | error e =>
        rw [added] at taken
        cases taken
      | ok further =>
        rw [added] at taken
        cases taken
        refine ⟨pieces,?_,by omega⟩
        rintro _ ⟨⟩
        rw [Splice.add_source added,length_cons]
        omega
    | none =>
      simp only [open'] at taken
      -- Only an opening brace begins an expression, and nothing of it has been read then.
      have kept (further : Reading) (same : further.pieces = r.pieces)
          (idle : further.splice = none ∨ further.splice = some ⟨[],r.line,0,none⟩) :
          further.Within n rest := by
        refine ⟨same ▸ pieces,?_,by omega⟩
        rcases idle with idle | idle <;> simp [idle]
        omega
      repeat' split at taken
      all_goals cases taken
      all_goals first
        | exact kept _ rfl (.inl open')
        | exact kept _ rfl (.inr rfl)
        | exact kept _ (r.escape_kept _).1 (.inl ((r.escape_kept _).2.trans open'))

theorem readString_within {r} (within : r.Within n cs) : ∀ p ∈ (readString q r cs).1, p.Within n := by
  induction length : cs.length using Nat.strongRecOn generalizing r cs with
  | ind m ih =>
  rw [readString_eq]
  cases taken : stringStep q r cs with
  | ends stop rest =>
    intro p mem
    rcases mem_cons.mp (mem_reverse.mp mem) with rfl | mem
    · trivial
    · exact within.pieces p mem
  | more next rest => exact ih rest.length (length ▸ stringStep_shorter taken) (within.step taken) rfl

theorem readLiteral_within (quote : Char) (format raw : Bool) (line : Nat) (cs : List Char) (read : readLiteral quote format raw line cs = (.str pieces stop,rest)) :
    ∀ p ∈ pieces, p.Within (cs.length + 1) := by
  have inside (triple : Bool) {body} (shorter : body.length ≤ cs.length) :
      ∀ p ∈ (readString ⟨quote,triple,format,raw,line⟩ { line } body).1, p.Within (cs.length + 1) :=
    readString_within ⟨by simp,by simp,Nat.lt_succ_of_le shorter⟩
  rw [readLiteral_eq] at read
  split at read
  all_goals
    obtain ⟨⟨rfl,rfl⟩,rfl⟩ := Prod.mk.inj read |>.imp_left Lexeme.str.inj
    exact inside _ (by simp)

def isLiteral : Lexeme → Bool
  | .str .. => true
  | _ => false

-- Only literals know on which line they stand.
theorem read_cases (member : Bool) (c : Char) (cs : List Char) : (∃ lexeme rest, lexeme.isLiteral = false ∧
      ∀ line, read member line c cs = (lexeme,rest)) ∨
    ∃ quote format raw tail, tail <:+ cs ∧ ∀ line, read member line c cs = readLiteral quote format raw line tail := by
  cases single : single? c with
  | some lexeme =>
    refine .inl ⟨lexeme,cs,?_,fun line => by rw [read,single]⟩
    unfold single? at single
    split at single <;> cases single <;> rfl
  | none =>
    simp only [read,single]
    split
    · exact .inl ⟨_,_,rfl,fun line => rfl⟩
    split
    · exact .inl ⟨_,_,rfl,fun line => rfl⟩
    split
    · exact .inr ⟨_,_,_,cs,suffix_refl cs,fun line => rfl⟩
    split
    · exact .inl ⟨_,_,rfl,fun line => rfl⟩
    split
    · have suffix := dropWhile_suffix isWordChar (l := cs)
      generalize cs.dropWhile isWordChar = after at suffix
      unfold readWord
      split
      · exact .inl ⟨_,_,rfl,fun line => rfl⟩
      split
      · unfold readLambda
        split <;> exact .inl ⟨_,_,rfl,fun line => rfl⟩
      split
      · split
        · exact .inr ⟨_,_,_,_,(suffix_cons ..).trans suffix,fun line => rfl⟩
        · exact .inl ⟨_,_,rfl,fun line => rfl⟩
      · exact .inl ⟨_,_,rfl,fun line => rfl⟩
    · split <;> exact .inl ⟨_,_,rfl,fun line => rfl⟩

theorem read_within {member line} (read : read member line c cs = (.str pieces stop,rest)) :
    ∀ p ∈ pieces, p.Within (cs.length + 1) := by
  rcases read_cases member c cs with ⟨lexeme,after,other,always⟩ | ⟨_,_,_,tail,suffix,always⟩
  · rw [always] at read
    rw [(Prod.mk.inj read).1] at other
    contradiction
  · rw [always] at read
    intro p member
    have size := readLiteral_within _ _ _ _ _ read p member
    cases p with
    | text => trivial
    | splice => exact Nat.lt_of_lt_of_le size (Nat.succ_le_succ suffix.length_le)

end Lexeme

end EmbedScript
