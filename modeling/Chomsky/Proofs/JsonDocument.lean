import Chomsky.Grammar.Literal
import Chomsky.Proofs.JsonReading

/-!
# Documents are read as they are written

Every value that is `Exact` is read from the document that is written for it (`read_documentText`).
The proof follows the value: what stands on the lines of an array or object are texts for its items
or fields.
-/

namespace Chomsky.Json

variable {v : Json} {level : Nat} {opening closing : String} {parts : List String}

mutual

/-- The value is one that is read as it was written: nothing in it is a double, its integers are not
longer than those that are read, and no object has two fields with one key. -/
def Exact : Json → Prop
  | null => True
  | bool _ => True
  | int n => n.natAbs < 10 ^ Text.maxIntegerDigits
  | float _ => False
  | string _ => True
  | array items => ExactItems items
  | object fields => (fields.map Prod.fst).Nodup ∧ ExactFields fields

def ExactItems : List Json → Prop
  | [] => True
  | v :: rest => Exact v ∧ ExactItems rest

def ExactFields : List (String × Json) → Prop
  | [] => True
  | (_, v) :: rest => Exact v ∧ ExactFields rest

end

theorem toList_block (hne : parts ≠ []) : (block level opening closing parts).toList =
      opening.toList ++ (('\n' :: List.replicate (level + 1) ' ') ++
        ((',' :: '\n' :: List.replicate (level + 1) ' ').intercalate (parts.map String.toList) ++
          (('\n' :: List.replicate level ' ') ++ closing.toList))) := by
  rw [block, if_neg (by simpa using hne)]
  simp only [newline, String.toList_append, String.toList_ofList, String.toList_intercalate,
    List.append_assoc]
  rfl

theorem toList_block_nil :
    (block level opening closing []).toList = opening.toList ++ closing.toList :=
  String.toList_append

theorem blank_newline (level : Nat) : Blank ('\n' :: List.replicate level ' ') := by
  intro c hc
  rcases List.mem_cons.mp hc with rfl | hc
  · rfl
  · rw [List.eq_of_mem_replicate hc]
    rfl

theorem blank_space : Blank [' '] := by
  intro c hc
  rw [List.mem_singleton.mp hc]
  rfl

mutual

theorem denotes_indented (level : Nat) : ∀ v : Json, v.Exact → Denotes (v.indented level).toList v
  | null, _ => denotes_null
  | bool b, _ => denotes_bool b
  | int _, h => denotes_toString h
  | string s, _ => denotes_writeText s
  | array [], _ => by
    rw [indented, indentedItems, toList_block_nil]
    exact denotes_emptyArray
  | array (v :: vs), h => by
    have hparts := denotes_indentedItems (level + 1) (v :: vs) h
    rw [indented, toList_block (by simp [indentedItems])]
    exact denotes_array (blank_newline _) (blank_newline _) hparts (by simp [indentedItems])
  | object [], _ => by
    rw [indented, indentedFields, toList_block_nil]
    exact denotes_emptyObject
  | object (f :: fs), h => by
    have hparts := denotes_indentedFields (level + 1) (f :: fs) h.2
    rw [indented, toList_block (by simp [indentedFields])]
    exact denotes_object (blank_newline _) (blank_newline _) hparts (by simp [indentedFields]) h.1

theorem denotes_indentedItems (level : Nat) : ∀ vs : List Json, ExactItems vs →
    List.Forall₂ Denotes ((indentedItems level vs).map String.toList) vs
  | [], _ => .nil
  | v :: vs, h => .cons (denotes_indented level v h.1) (denotes_indentedItems level vs h.2)

theorem denotes_indentedFields (level : Nat) : ∀ fs : List (String × Json), ExactFields fs →
    List.Forall₂ DenotesField ((indentedFields level fs).map String.toList) fs
  | [], _ => .nil
  | (key, v) :: fs, h => by
    refine .cons ?_ (denotes_indentedFields level fs h.2)
    rw [String.toList_append, String.toList_append, List.append_assoc]
    exact denotesField blank_space (denotes_indented level v h.1)

end

/-- A document is read as the value that it was written for. -/
theorem read_documentText (h : v.Exact) : read (documentText v).toList = .ok v := by
  rw [documentText, String.toList_append]
  exact (denotes_indented 0 v h).read_eq (blank_newline 0)

example : read (documentText (.object
      [("a", .array []), ("", .array [.int (-30), .string "\x22\n"])])).toList =
    .ok (.object [("a", .array []), ("", .array [.int (-30), .string "\x22\n"])]) := rfl

end Chomsky.Json
