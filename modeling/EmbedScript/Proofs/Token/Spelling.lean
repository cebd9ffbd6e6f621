import EmbedScript.Token.Lexeme
import EmbedScript.Number.Decimal
import EmbedScript.Number.Word

/-!
Lexemes of written texts, integers and words, in front of a rest that cannot continue them.
-/

namespace EmbedScript

open Lexeme

-- Brackets, commas and colons: they belong to no text, number or word.
def isBorder (c : Char) : Bool := c ∈ [',',':','(',')',']','\x7d']

def Bordered (rest : List Char) : Prop := ∀ c ∈ rest.head?, isBorder c

theorem Bordered.nil : Bordered [] := by simp [Bordered]

variable {p : Char → Bool} {cs : List Char}

theorem Bordered.cons (border : isBorder c) (rest : List Char) : Bordered (c :: rest) := by simpa [Bordered] using border

namespace Lexeme

theorem of_isBorder (border : isBorder c) (never : [',',':','(',')',']','\x7d'].all (!p ·) = true) : p c = false := by
  have outside := List.all_eq_true.mp never c (by simpa [isBorder] using border)
  simpa using outside

theorem ne_of_isBorder (border : isBorder c) (other : isBorder d = false) : c ≠ d := by
  rintro rfl
  rw [border] at other
  contradiction

-- Quoted texts

section Quoted

variable {format : Bool}
  (mark : quote = '\'' ∨ quote = '"') (line : Nat) (text : List Char)

include mark

theorem readString_escape (e : Char) (rest : List Char) :
    readString ⟨quote,false,format,false,start⟩ { line, text, pieces } ('\\' :: e :: rest) =
      readString ⟨quote,false,format,false,start⟩ (Reading.escape { line, text, pieces } e) rest := by
  have other : '\\' ≠ quote := by rcases mark with rfl | rfl <;> decide
  rw [readString.eq_def]
  simp [other]

omit mark in
theorem readString_plain (inside : c ≠ quote) (same : c ≠ '\n') (plain : c ≠ '\\')
    (whole : format → c ≠ '\x7b' ∧ c ≠ '\x7d') (rest : List Char) :
    readString ⟨quote,false,format,false,start⟩ { line, text, pieces } (c :: rest) =
      readString ⟨quote,false,format,false,start⟩ { line, text := c :: text, pieces } rest := by
  rw [readString.eq_def]
  cases format with
  | false => simp [inside,same,plain,Reading.add]
  | true => simp [inside,same,plain,whole rfl,Reading.add]

theorem readString_quotedChar (c : Char) (whole : format → c ≠ '\x7b' ∧ c ≠ '\x7d') (rest : List Char) :
    readString ⟨quote,false,format,false,start⟩ { line, text, pieces } (Text.quotedChar quote c ++ rest) =
      readString ⟨quote,false,format,false,start⟩ { line, text := c :: text, pieces } rest := by
  by_cases slash : c = '\\'
  · subst slash
    exact readString_escape mark line text '\\' rest
  by_cases feed : c = '\n'
  · subst feed
    exact readString_escape mark line text 'n' rest
  by_cases carriage : c = '\r'
  · subst carriage
    exact readString_escape mark line text 'r' rest
  by_cases tab : c = '\t'
  · subst tab
    exact readString_escape mark line text 't' rest
  by_cases inside : c = quote
  · subst inside
    simp only [Text.quotedChar,beq_iff_eq,slash,feed,carriage,tab,if_false,if_true]
    rw [List.cons_append,List.cons_append,readString_escape mark]
    rcases mark with rfl | rfl <;> rfl
  · simp only [Text.quotedChar,beq_iff_eq,slash,feed,carriage,tab,inside]
    exact readString_plain line text inside feed slash whole rest

theorem readString_quoted (cs rest : List Char) : readString ⟨quote,false,false,false,line⟩ { line, text }
        (cs.flatMap (Text.quotedChar quote) ++ quote :: rest) =
      ([.text (text.reverse ++ cs)],.ok line,rest) := by
  induction cs generalizing text with
  | nil =>
    rw [readString.eq_def]
    simp [Reading.close]
  | cons c cs ih =>
    rw [List.flatMap_cons,List.append_assoc,readString_quotedChar mark _ _ c Bool.noConfusion,ih]
    simp

theorem quotedChar_head (c : Char) : ∃ first more, Text.quotedChar quote c = first :: more ∧ first ≠ quote := by
  have slash : '\\' ≠ quote := by rcases mark with rfl | rfl <;> decide
  by_cases inside : c = quote
  · refine ⟨'\\',[c],?_,slash⟩
    subst inside
    rcases mark with rfl | rfl <;> rfl
  · unfold Text.quotedChar
    split
    · exact ⟨_,_,rfl,slash⟩
    split
    · exact ⟨_,_,rfl,slash⟩
    split
    · exact ⟨_,_,rfl,slash⟩
    split
    · exact ⟨_,_,rfl,slash⟩
    rw [if_neg (by simpa using inside)]
    exact ⟨_,_,rfl,inside⟩

-- Two quotes at the start would open a longer literal; only an empty text has one there.
theorem readLiteral_quoted (cs : List Char) (ended : rest.head? ≠ some quote) :
    readLiteral quote false false line (cs.flatMap (Text.quotedChar quote) ++ quote :: rest) =
      (.str [.text cs] (.ok line),rest) := by
  have read := readString_quoted mark line [] cs rest
  cases cs with
  | nil =>
    cases rest with
    | nil => simp [readLiteral] at read ⊢; simp [read]
    | cons c rest =>
      have other : c ≠ quote := by simpa using ended
      simp [readLiteral,other] at read ⊢
      simp [read]
  | cons c cs =>
    obtain ⟨first,more,spelled,other⟩ := quotedChar_head mark c
    rw [List.flatMap_cons,spelled,List.cons_append,List.cons_append] at read ⊢
    cases tail : more ++ cs.flatMap (Text.quotedChar quote) ++ quote :: rest with
    | nil => simp at tail
    | cons second tail' =>
      rw [tail] at read
      simp [readLiteral,other,read]

theorem read_quoted (member : Bool) (cs : List Char) (ended : rest.head? ≠ some quote) :
    read member line quote (cs.flatMap (Text.quotedChar quote) ++ quote :: rest) = (.str [.text cs] (.ok line),rest) := by
  rw [← readLiteral_quoted mark line cs ended]
  rcases mark with rfl | rfl <;> simp [read,single?]

end Quoted

theorem notMem_of (holds : p c = true) (never : cs.all (!p ·) = true) : c ∉ cs := by
  intro member
  have fails := List.all_eq_true.mp never c member
  simp [holds] at fails

theorem single?_of (holds : p c = true) (never : "\n \t\r;,.:([\x7b)]\x7d".toList.all (!p ·) = true) : single? c = none := by
  have outside := notMem_of holds never
  unfold single?
  split
  case h_15 => rfl
  all_goals exact absurd (by decide) outside

theorem readNumber_border (border : isBorder c) (rest : List Char) : readNumber false (c :: rest) = ([],false,c :: rest) := by
  have digit := of_isBorder border (p := Char.isDigit) rfl
  rw [readNumber.eq_def]
  simp (disch := decide) [digit,ne_of_isBorder border]

theorem readNumber_digits (digits : ∀ c ∈ cs, c.isDigit)
    (bordered : Bordered rest) : readNumber false (cs ++ rest) = (cs,false,rest) := by
  induction cs with
  | nil =>
    cases rest with
    | nil => rfl
    | cons c rest => exact readNumber_border (bordered c rfl) rest
  | cons c cs ih =>
    have first := digits c (.head _)
    have remaining := ih fun d member => digits d (.tail _ member)
    rw [readNumber.eq_def]
    simp [first,remaining]

variable (member : Bool) (line : Nat)

theorem read_digits (digits : ∀ d ∈ c :: cs, d.isDigit) (bordered : Bordered rest) :
    read member line c (cs ++ rest) = (.number (c :: cs) false true,rest) := by
  have first := digits c (.head _)
  have more := readNumber_digits (fun d member => digits d (.tail _ member)) bordered
  have single := single?_of first rfl
  have clean : rest.head?.any isWordStart = false := by
    cases rest with
    | nil => rfl
    | cons d rest => exact of_isBorder (p := isWordStart) (bordered d rfl) rfl
  have other : c ∉ ['#','\\','"','\''] := notMem_of first rfl
  simp only [List.mem_cons,not_or] at other
  simp [read,single,other,first,more,clean]

theorem read_minus (digit : c.isDigit) (rest : List Char) : read member line '-' (c :: rest) = (.op .sub false,c :: rest) := by
  have arrow : '>' ≠ c := by rintro rfl; contradiction
  have equals : '=' ≠ c := by rintro rfl; contradiction
  have width : "-".length = 1 := rfl
  simp [read,single?,isWordStart,Text.isLetter,operator?,operators,arrow,equals,width]

theorem takeWhile_border (inside : ∀ c ∈ cs, p c) (outside : ∀ c ∈ rest.head?, p c = false) :
    (cs ++ rest).takeWhile p = cs ∧ (cs ++ rest).dropWhile p = rest := by
  induction cs with
  | nil =>
    cases rest with
    | nil => exact ⟨rfl,rfl⟩
    | cons c rest => simp [outside c rfl]
  | cons c cs ih =>
    obtain ⟨taken,dropped⟩ := ih fun d member => inside d (.tail _ member)
    simp [inside c (.head _),taken,dropped]

theorem read_start (start : isWordStart c) (number : c.isDigit = false) (cs : List Char) : read member line c cs =
      readWord member line (c :: cs.takeWhile isWordChar) (cs.dropWhile isWordChar) := by
  have single := single?_of start rfl
  have other : c ∉ ['#','\\','"','\''] := notMem_of start rfl
  simp only [List.mem_cons,not_or] at other
  simp [read,single,other,number,start]

theorem read_word (start : isWordStart c) (inside : ∀ d ∈ cs, isWordChar d) (number : c.isDigit = false)
    (other : (c :: cs == "lambda".toList) = false) (bordered : Bordered rest) :
    read false line c (cs ++ rest) = (.word (c :: cs),rest) := by
  have outside : ∀ d ∈ rest.head?, isWordChar d = false := fun d first => of_isBorder (bordered d first) rfl
  obtain ⟨taken,dropped⟩ := takeWhile_border inside outside
  rw [read_start false line start number,taken,dropped,readWord.eq_def,other]
  simp only [Bool.false_eq_true,if_false]
  split
  next quote _ _ _ _ =>
    have apart {d} := ne_of_isBorder (d := d) (bordered quote rfl)
    simp (disch := decide) [apart]
  next => rfl

end Lexeme

end EmbedScript
