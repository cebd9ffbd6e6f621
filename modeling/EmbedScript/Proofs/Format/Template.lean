import EmbedScript.Host.Text
import EmbedScript.Proofs.Exec

namespace EmbedScript

open List Text

/-- What stands between two texts: a value, the name it is bound to, and the text behind it. -/
structure Field where
  name : String
  value : Value
  text : String

def Engine.concatenate (k : Engine) (done : String) : List Field → Exec String
  | [] => return done
  | f :: fields => do
    let text ← k.str f.value
    k.concatenate (done ++ text ++ f.text) fields

namespace Text

def isBrace (c : Char) : Bool := c == '\x7b' || c == '\x7d'

def doubled (c : Char) : List Char := if isBrace c then [c,c] else [c]

end Text

namespace Field

def template (first : String) (fields : List Field) : String := String.ofList (first.toList.flatMap doubled ++
    fields.flatMap fun f => '\x7b' :: '\x7d' :: f.text.toList.flatMap doubled)

def pieces (f : Field) : List TemplatePiece := .field [] [] :: f.text.toList.map .text

end Field

-- The pieces of a template

theorem templatePieces_doubled (cs rest : List Char) :
    templatePieces none (cs.flatMap doubled ++ rest) = cs.map .text ++ templatePieces none rest := by
  induction cs with
  | nil => rfl
  | cons c cs ih =>
    rw [map_cons,cons_append,← ih]
    by_cases opening : c = '\x7b'
    · subst opening
      rfl
    by_cases closing : c = '\x7d'
    · subst closing
      rfl
    · have single : doubled c = [c] := by simp [doubled,isBrace,opening,closing]
      rw [templatePieces.eq_def]
      split <;> simp_all

theorem templatePieces_fields (fields : List Field) :
    templatePieces none (fields.flatMap fun f => '\x7b' :: '\x7d' :: f.text.toList.flatMap doubled) =
      fields.flatMap Field.pieces := by
  induction fields with
  | nil => rfl
  | cons f fields ih =>
    rw [flatMap_cons,flatMap_cons,← ih,cons_append,cons_append]
    have field (rest : List Char) :
        templatePieces none ('\x7b' :: '\x7d' :: rest) = .field [] [] :: templatePieces none rest := rfl
    rw [field,templatePieces_doubled]
    rfl

-- Filling it

namespace Engine

variable (k : Engine)

theorem fillTemplate_texts (positional : List Value) (keywords : List (String × Value)) (unnamed : Nat)
    (cs : List Char) (pieces : List TemplatePiece) :
    k.fillTemplate positional keywords unnamed (cs.map .text ++ pieces) =
      (do return cs ++ (← k.fillTemplate positional keywords unnamed pieces)) := by
  induction cs with
  | nil => simp
  | cons c cs ih =>
    rw [map_cons,cons_append,fillTemplate,ih]
    simp only [bind_assoc,pure_bind,cons_append]

theorem fillTemplate_field (before after : List Value) (v : Value) (keywords : List (String × Value))
    (pieces : List TemplatePiece) :
    k.fillTemplate (before ++ v :: after) keywords before.length (.field [] [] :: pieces) = (do
      let text ← k.str v
      return text.toList ++ (← k.fillTemplate (before ++ v :: after) keywords (before.length + 1) pieces)) := by
  have taken : fieldValue (before ++ v :: after) keywords before.length [] = .ok (v,before.length + 1) := by
    have position : (before ++ v :: after)[before.length]? = some v := by simp
    have unplaced : fieldPosition? [] = none := rfl
    rw [fieldValue]
    simp only [isEmpty_nil,if_true,positionalField,position]
    rfl
  rw [fillTemplate,taken]
  rfl

theorem fillTemplate_fields (before : List Value) (keywords : List (String × Value)) (fields : List Field) (done : String) : (do
      let cs ← k.fillTemplate (before ++ fields.map Field.value) keywords before.length (fields.flatMap Field.pieces)
      return done ++ String.ofList cs) = k.concatenate done fields := by
  induction fields generalizing before done with
  | nil => simp [fillTemplate,concatenate]
  | cons f fields ih =>
    have rest := fun done => ih (before ++ [f.value]) done
    simp only [append_assoc,singleton_append,length_append,length_singleton] at rest
    rw [map_cons,flatMap_cons,Field.pieces,cons_append,fillTemplate_field,concatenate]
    simp only [bind_assoc,pure_bind,fillTemplate_texts,← rest]
    refine congrArg _ (funext fun text => congrArg _ (funext fun cs => ?_))
    simp [String.append_assoc]

theorem splitKeywords_positional (positional : ∀ v ∈ arguments.getLast?, v.isKeyword = false) :
    splitKeywords arguments = (arguments,[]) := by
  have kept : arguments.reverse.dropWhile Value.isKeyword = arguments.reverse ∧
      arguments.reverse.takeWhile Value.isKeyword = [] := by
    rw [← head?_reverse] at positional
    cases backward : arguments.reverse with
    | nil => simp
    | cons v vs =>
      rw [backward] at positional
      have plain := positional v rfl
      simp [plain]
  simp only [splitKeywords,kept,reverse_reverse]
  rfl

theorem formatTemplate_template (first : String) (fields : List Field)
    (positional : ∀ v ∈ (fields.map Field.value).getLast?, v.isKeyword = false) :
    k.formatTemplate (Field.template first fields) (fields.map Field.value) = k.concatenate first fields := by
  have filled := k.fillTemplate_fields [] [] fields first
  simp only [nil_append,length_nil] at filled
  have scanned : templatePieces none (Field.template first fields).toList =
      first.toList.map .text ++ fields.flatMap Field.pieces := by
    rw [Field.template,String.toList_ofList,templatePieces_doubled,templatePieces_fields]
  simp only [formatTemplate,splitKeywords_positional positional,scanned,fillTemplate_texts,← filled,
    bind_assoc,pure_bind,String.ofList_append,String.ofList_toList]

end Engine

end EmbedScript
