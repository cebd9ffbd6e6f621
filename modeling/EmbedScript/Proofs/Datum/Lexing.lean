import EmbedScript.Proofs.Datum.Text
import EmbedScript.Proofs.Number.Word
import EmbedScript.Proofs.Token.Gathering

/-!
The text of a tree is read as the tokens of the tree, wherever it stands.
-/

namespace EmbedScript

open List Token Lexer Text

namespace Text

theorem splitFrom_absent {c pat} (absent : c ∉ cs) :
    splitFrom (c :: pat) none 0 piece cs = [piece.reverse ++ cs] := by
  induction cs generalizing piece with
  | nil => simp [splitFrom]
  | cons d cs ih =>
    obtain ⟨other,absent⟩ := not_or.mp (fun mem => absent (mem_cons.mpr mem))
    simp [splitFrom,other,ih absent]

theorem replace_absent {c pat} (absent : c ∉ cs) : replace (c :: pat) new cs none = cs := by
  simp [replace,split,splitFrom_absent absent,joinWith]

theorem quotedChar_no_return (quote c : Char) : '\r' ∉ quotedChar quote c := by
  unfold quotedChar
  split
  · decide
  split
  · decide
  split
  · decide
  split
  · decide
  next _ _ carriage _ =>
    have different : '\r' ≠ c := fun same => carriage (by rw [← same]; rfl)
    split <;> simp [different]

theorem quoted_no_return (text : String) : '\r' ∉ (quoted text).toList := by
  have marked : '\r' ≠ quoteFor text.toList := by
    unfold quoteFor
    split <;> decide
  simp [quoted,marked,quotedChar_no_return]

end Text

namespace Word

theorem toString_head (a : Int) : ∃ c cs, (toString a).toList = c :: cs ∧ c ∉ ['\n',' ','\t','\r','#'] := by
  rw [toList_toString]
  split
  · exact ⟨_,_,rfl,by decide⟩
  · cases digits : Nat.toDigits 10 a.natAbs with
    | nil => exact absurd digits Nat.toDigits_ne_nil
    | cons c cs =>
      have digit : c.isDigit := Scanner.isDigit_of_mem_digits c (digits ▸ mem_cons_self ..)
      refine ⟨c,cs,rfl,fun mem => ?_⟩
      simp only [mem_cons,not_mem_nil,or_false] at mem
      rcases mem with rfl | rfl | rfl | rfl | rfl <;> contradiction

theorem toString_no_return (a : Int) : '\r' ∉ (toString a).toList := by
  have digits : '\r' ∉ Nat.toDigits 10 a.natAbs := fun mem => by
    have digit := Scanner.isDigit_of_mem_digits _ mem
    contradiction
  rw [toList_toString]
  split
  · simpa using digits
  · exact digits

end Word

theorem tokenize_visible {source c} (spelled : source.toList = c :: cs)
    (visible : c ∉ ['\n',' ','\t','\r','#']) (plain : '\r' ∉ source.toList) :
    tokenize source = (entries (tokenizeWithin source.toList.length) (Scanner.start 1) source.toList).map Line.forest := by
  have kept : replace ['\r','\n'] ['\n'] source.toList .none = source.toList := replace_absent plain
  have start : indentation false 1 [] source.toList = (1,some [],source.toList) := by
    simp only [mem_cons,not_or] at visible
    simp [spelled,indentation,visible]
  have entered : (Scanner.start 1).enterLine [] = .ok (Scanner.start 1) := rfl
  simp only [tokenize,tokenizeWithin,kept,start,entered,bind,Except.bind]
  cases entries (tokenizeWithin source.toList.length) (Scanner.start 1) source.toList <;> rfl

namespace Datum

mutual

def tokens (line : Nat) (comma : Bool) : Datum → List Token
  | .none => [.name "None" ⟨line,comma⟩]
  | .bool b => [.name (if b then "True" else "False") ⟨line,comma⟩]
  | .int n =>
    let magnitude := .number n.toInt.natAbs.repr ⟨line,comma⟩
    if n.toInt < 0 then [.op .sub false ⟨line,false⟩,magnitude] else [magnitude]
  | .str text => [.str text ⟨line,comma⟩]
  | .list ds => [.group .bracket (tokensAll line false ds) ⟨line,comma⟩]
  | .tuple ds => [.group .paren (tokensAll line (ds.length = 1) ds) ⟨line,comma⟩]
  | .set ds =>
    if ds.isEmpty then [.name "set" ⟨line,false⟩,.group .paren [] ⟨line,comma⟩]
    else [.group .brace (tokensAll line false ds) ⟨line,comma⟩]
  | .dict es => [.group .brace (tokensOf line es) ⟨line,comma⟩]

def tokensAll (line : Nat) (trail : Bool) : List Datum → List Token
  | [] => []
  | d :: ds => d.tokens line (trail || !ds.isEmpty) ++ tokensAll line trail ds

def tokensOf (line : Nat) : List Binding → List Token
  | [] => []
  | .mk k v :: es => k.tokens line false ++ .op .colon false ⟨line,false⟩ :: (v.tokens line (!es.isEmpty) ++ tokensOf line es)

end

theorem tokens_shape (line : Nat) (d : Datum) : ∃ before last,
    (∀ comma, d.tokens line comma = before ++ [last.withSpot ⟨line,comma⟩]) ∧ (∀ t ∈ before, t.comma = false) ∧
      ∀ t ∈ last :: before, t.isOperator = false ∨ ∃ spot, t = .op .sub false spot := by
  cases d with
  | none => exact ⟨[],.name "None" ⟨line,false⟩,fun _ => rfl,by simp,by simp [isOperator]⟩
  | bool b => exact ⟨[],.name _ ⟨line,false⟩,fun _ => rfl,by simp,by simp [isOperator]⟩
  | int n =>
    simp only [tokens]
    split
    · exact ⟨[.op .sub false ⟨line,false⟩],.number _ ⟨line,false⟩,fun _ => rfl,by simp [comma,spot],by simp [isOperator]⟩
    · exact ⟨[],.number _ ⟨line,false⟩,fun _ => rfl,by simp,by simp [isOperator]⟩
  | str text => exact ⟨[],.str text ⟨line,false⟩,fun _ => rfl,by simp,by simp [isOperator]⟩
  | list ds => exact ⟨[],.group .bracket _ ⟨line,false⟩,fun _ => rfl,by simp,by simp [isOperator]⟩
  | tuple ds => exact ⟨[],.group .paren _ ⟨line,false⟩,fun _ => rfl,by simp,by simp [isOperator]⟩
  | set ds =>
    simp only [tokens]
    split
    · exact ⟨[.name "set" ⟨line,false⟩],.group .paren [] ⟨line,false⟩,fun _ => rfl,by simp [comma,spot],by simp [isOperator]⟩
    · exact ⟨[],.group .brace _ ⟨line,false⟩,fun _ => rfl,by simp,by simp [isOperator]⟩
  | dict es => exact ⟨[],.group .brace _ ⟨line,false⟩,fun _ => rfl,by simp,by simp [isOperator]⟩

section Separators

variable (lines : Reader) {s : Scanner} (steady : s.Steady) (before : List Token)

theorem entries_comma (d : Datum) (rest : List Char) : entries lines (s.put (before ++ d.tokens s.line false)) (',' :: rest) =
      entries lines (s.put (before ++ d.tokens s.line true)) rest := by
  obtain ⟨front,last,ends,_⟩ := tokens_shape s.line d
  have taken := Scanner.take_comma (s := s) lines (before ++ front) (last.withSpot ⟨s.line,false⟩)
  rw [withSpot_withSpot,line_withSpot] at taken
  rw [ends,ends,← append_assoc,← append_assoc]
  exact entries_cons rfl taken rfl

theorem entries_space (t : Scanner) (rest : List Char) : entries lines t (' ' :: rest) = entries lines t rest :=
  entries_cons rfl rfl rfl

include steady

theorem entries_colon (inside : s.groups.isEmpty = false) (rest : List Char) : entries lines (s.put before) (':' :: rest) =
      entries lines (s.put (before ++ [.op .colon false ⟨s.line,false⟩])) rest := by
  have taken := Scanner.take_colon lines (steady.put before) (by simpa using inside)
  rw [Scanner.put_put,Scanner.put_line] at taken
  exact entries_cons rfl taken rfl

end Separators

variable (d : Datum) (inside : Bool)

theorem reads_int {n} (writable : n ≠ Int64.minValue) : Reads inside (Word.text n).toList ((int n).tokens · false) := by
  have fits : (Word.ofInt? n.toInt.natAbs).isSome := by rw [Word.ofInt?_natAbs writable]; rfl
  have digits := Reads.digits inside fits
  by_cases sign : n.toInt < 0
  · simp only [tokens,sign]
    rw [Word.text,Word.toList_toString,if_pos sign]
    cases spelled : Nat.toDigits 10 n.toInt.natAbs with
    | nil => exact absurd spelled Nat.toDigits_ne_nil
    | cons c cs =>
      have digit : c.isDigit := Nat.isDigit_of_mem_toDigits (by decide) (by decide) (spelled ▸ mem_cons_self ..)
      exact (spelled ▸ digits).minus digit
  · simp only [tokens,sign]
    rw [Word.text,Word.toList_toString,if_neg sign]
    exact digits

theorem reads_name (inside : Bool) {name} (known : name ∈ ["None","True","False","set"]) :
    Reads inside name.toList fun line => [.name name ⟨line,false⟩] := by
  simp only [mem_cons,not_mem_nil,or_false] at known
  have plain (s : Scanner) (free : s.member = false) : s.word name = .ok (s.push (.name name)) := by
    rcases known with rfl | rfl | rfl | rfl <;> simp [Scanner.word,free,Keyword.ofWord?,Keyword.all,Keyword.text,Scanner.pushName]
  rcases known with rfl | rfl | rfl | rfl <;> exact Reads.word inside rfl (by decide) (all_eq_true.mp rfl) rfl rfl plain

theorem reads_emptySet : Reads inside "set()".toList fun line => [.name "set" ⟨line,false⟩,.group .paren [] ⟨line,false⟩] := by
  intro lines s rest steady grouped bordered
  have name := @reads_name inside "set" (by simp) lines s ('(' :: ')' :: rest) steady grouped (.cons rfl _)
  have brackets := @Reads.group .paren _ _ (by decide) (Reads.nil true) inside lines
    (s.put [.name "set" ⟨s.line,false⟩]) rest (steady.put _) (by simpa using grouped) bordered
  rw [Scanner.put_put,Scanner.put_line] at brackets
  exact name.trans brackets

theorem bordered_more (ds : List Datum) (bordered : Bordered rest) : Bordered (charsMore ds ++ rest) := by
  cases ds with
  | nil => exact bordered
  | cons d ds => exact .cons rfl _

theorem bordered_ofMore (es : List Binding) (bordered : Bordered rest) : Bordered (charsOfMore es ++ rest) := by
  cases es with
  | nil => exact bordered
  | cons b es =>
    obtain ⟨k,v⟩ := b
    exact .cons rfl _

theorem reads_single {d : Datum} (item : Reads true d.chars (d.tokens · false)) :
    Reads true (d.chars ++ [',']) (d.tokens · true) := by
  intro lines s rest steady grouped bordered
  have first := item lines s (',' :: rest) steady grouped (.cons rfl rest)
  have comma := entries_comma lines (s := s) [] d rest
  rw [append_assoc]
  exact first.trans comma

theorem reads_pair {k v : Datum} (ofKey : Reads true k.chars (k.tokens · false))
    (ofValue : Reads true v.chars (v.tokens · false)) (lines : Reader) {s : Scanner}
    (before : List Token) (steady : s.Steady)
    (grouped : s.groups.isEmpty = false) (bordered : Bordered rest) :
    entries lines (s.put before) (k.chars ++ ':' :: ' ' :: (v.chars ++ rest)) =
      entries lines (s.put (before ++ k.tokens s.line false ++
        [.op .colon false ⟨s.line,false⟩] ++ v.tokens s.line false)) rest := by
  have key := ofKey lines (s.put before) (':' :: ' ' :: (v.chars ++ rest)) (steady.put _) (by simpa using grouped) (.cons rfl _)
  have value := ofValue lines (s.put (before ++ k.tokens s.line false ++
    [.op .colon false ⟨s.line,false⟩])) rest (steady.put _) (by simpa using grouped) bordered
  rw [Scanner.put_put,Scanner.put_line] at key value
  rw [key,entries_colon lines steady _ grouped,entries_space]
  exact value

mutual

theorem reads (inside : Bool) (d : Datum) (writable : d.All Writable) : Reads inside d.chars (d.tokens · false) := by
  cases d with
  | none => exact reads_name inside (by simp)
  | bool b => cases b <;> exact reads_name inside (by simp)
  | int n => exact reads_int inside writable
  | str text => exact Reads.quoted inside text
  | list ds => exact @Reads.group .bracket _ _ (by decide) (reads_all ds writable.2) inside
  | tuple ds =>
    match ds, writable.2 with
    | [], _ => exact @Reads.group .paren _ _ (by decide) (Reads.nil true) inside
    | [d], parts =>
      have item := @Reads.group .paren _ _ (by decide) (reads_single (reads true d parts.1)) inside
      simpa [chars,charsAll,charsMore,tokens,tokensAll,Shape.opening,Shape.closing] using item
    | d :: d' :: ds, parts =>
      have items := @Reads.group .paren _ _ (by decide) (reads_all (d :: d' :: ds) parts) inside
      simpa [chars,tokens,Shape.opening,Shape.closing] using items
  | set ds =>
    cases ds with
    | nil => exact reads_emptySet inside
    | cons d ds => exact @Reads.group .brace _ _ (by decide) (reads_all (d :: ds) writable.2) inside
  | dict es => exact @Reads.group .brace _ _ (by decide) (reads_of es writable.2) inside

theorem reads_all (ds : List Datum) (writable : Each Writable ds) : Reads true (charsAll ds) (tokensAll · false ds) := by
  cases ds with
  | nil => exact Reads.nil true
  | cons d ds =>
    intro lines s rest steady grouped bordered
    have first := reads true d writable.1 lines s (charsMore ds ++ rest) steady grouped (bordered_more ds bordered)
    have more := reads_more ds writable.2 d lines [] steady (grouped rfl) bordered
    simp only [charsAll,append_assoc]
    exact first.trans more

theorem reads_more (ds : List Datum) (writable : Each Writable ds) (d : Datum)
    (lines : Reader) {s : Scanner} (before : List Token) {rest}
    (steady : s.Steady) (grouped : s.groups.isEmpty = false) (bordered : Bordered rest) :
    entries lines (s.put (before ++ d.tokens s.line false)) (charsMore ds ++ rest) =
      entries lines (s.put (before ++ tokensAll s.line false (d :: ds))) rest := by
  cases ds with
  | nil => simp [charsMore,tokensAll]
  | cons d' ds =>
    have item := reads true d' writable.1 lines (s.put (before ++ d.tokens s.line true))
      (charsMore ds ++ rest) (steady.put _) (by simpa using grouped) (bordered_more ds bordered)
    have more := reads_more ds writable.2 d' lines (before ++ d.tokens s.line true) steady grouped bordered
    rw [Scanner.put_put,Scanner.put_line] at item
    simp only [charsMore,cons_append,append_assoc]
    rw [entries_comma,entries_space]
    refine (item.trans more).trans ?_
    simp [tokensAll]

theorem reads_of (es : List Binding) (writable : EachOf Writable es) : Reads true (charsOf es) (tokensOf · es) := by
  match es, writable with
  | [], _ => exact Reads.nil true
  | .mk k v :: es, writable =>
    intro lines s rest steady grouped bordered
    have pair := reads_pair (reads true k writable.1.1) (reads true v writable.1.2) lines []
      steady (grouped rfl) (bordered_ofMore es bordered)
    have more := reads_ofMore es writable.2 v lines
      (k.tokens s.line false ++ [.op .colon false ⟨s.line,false⟩]) steady (grouped rfl) bordered
    rw [Scanner.put_nil] at pair
    simp only [charsOf,append_assoc,cons_append]
    refine (pair.trans more).trans ?_
    simp [tokensOf]

theorem reads_ofMore (es : List Binding) (writable : EachOf Writable es) (d : Datum)
    (lines : Reader) {s : Scanner} (before : List Token) {rest}
    (steady : s.Steady) (grouped : s.groups.isEmpty = false) (bordered : Bordered rest) :
    entries lines (s.put (before ++ d.tokens s.line false)) (charsOfMore es ++ rest) = entries lines
        (s.put (before ++ d.tokens s.line (!es.isEmpty) ++ tokensOf s.line es)) rest := by
  match es, writable with
  | [], _ => simp [charsOfMore,tokensOf]
  | .mk k v :: es, writable =>
    have pair := reads_pair (reads true k writable.1.1) (reads true v writable.1.2) lines
      (before ++ d.tokens s.line true) steady grouped (bordered_ofMore es bordered)
    have more := reads_ofMore es writable.2 v lines (before ++ d.tokens s.line true ++
      k.tokens s.line false ++ [.op .colon false ⟨s.line,false⟩]) steady grouped bordered
    simp only [charsOfMore,cons_append,append_assoc]
    rw [entries_comma,entries_space]
    refine (pair.trans more).trans ?_
    simp [tokensOf]

end

theorem chars_head : ∃ c cs, d.chars = c :: cs ∧ c ∉ ['\n',' ','\t','\r','#'] := by
  cases d with
  | none => exact ⟨_,_,rfl,by decide⟩
  | bool b => cases b <;> exact ⟨_,_,rfl,by decide⟩
  | int n => exact Word.toString_head n.toInt
  | str text =>
    refine ⟨quoteFor text.toList,_,by simp [chars,quoted]; rfl,?_⟩
    unfold quoteFor
    split <;> decide
  | list ds => exact ⟨_,_,rfl,by decide⟩
  | tuple ds => exact ⟨_,_,rfl,by decide⟩
  | set ds =>
    cases ds with
    | nil => exact ⟨_,_,rfl,by decide⟩
    | cons d ds => exact ⟨_,_,rfl,by decide⟩
  | dict es => exact ⟨_,_,rfl,by decide⟩

mutual

theorem chars_no_return (d : Datum) : '\r' ∉ d.chars := by
  cases d with
  | none => decide
  | bool b => cases b <;> decide
  | int n => exact Word.toString_no_return n.toInt
  | str text => exact quoted_no_return text
  | list ds => simp [chars,charsAll_no_return ds]
  | tuple ds =>
    simp only [chars]
    split <;> simp [charsAll_no_return ds]
  | set ds =>
    simp only [chars]
    split
    · decide
    · simp [charsAll_no_return ds]
  | dict es => simp [chars,charsOf_no_return es]

theorem charsAll_no_return (ds : List Datum) : '\r' ∉ charsAll ds := by
  cases ds with
  | nil => simp [charsAll]
  | cons d ds => simp [charsAll,chars_no_return d,charsMore_no_return ds]

theorem charsMore_no_return (ds : List Datum) : '\r' ∉ charsMore ds := by
  cases ds with
  | nil => simp [charsMore]
  | cons d ds => simp [charsMore,chars_no_return d,charsMore_no_return ds]

theorem charsOf_no_return (es : List Binding) : '\r' ∉ charsOf es := by
  match es with
  | [] => simp [charsOf]
  | .mk k v :: es => simp [charsOf,chars_no_return k,chars_no_return v,charsOfMore_no_return es]

theorem charsOfMore_no_return (es : List Binding) : '\r' ∉ charsOfMore es := by
  match es with
  | [] => simp [charsOfMore]
  | .mk k v :: es => simp [charsOfMore,chars_no_return k,chars_no_return v,charsOfMore_no_return es]

end

theorem tokenize_text (writable : d.All Writable) : tokenize d.text = .ok [.mk ⟨1,.none,d.tokens 1 false⟩ .none []] := by
  obtain ⟨c,cs,spelled,visible⟩ := d.chars_head
  have read := d.reads false writable (tokenizeWithin d.chars.length) (Scanner.start 1) [] ⟨rfl,rfl⟩ (by simp) .nil
  have written : d.tokens 1 false ≠ [] := by
    obtain ⟨before,last,ends,_⟩ := tokens_shape 1 d
    simp [ends]
  rw [append_nil,entries] at read
  have ended := read.trans (Scanner.finish_put 1 written)
  rw [tokenize_visible (d.toList_text.trans spelled) visible (d.toList_text ▸ d.chars_no_return),toList_text,ended]
  rfl

end Datum

end EmbedScript
