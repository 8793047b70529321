import Chomsky.Grammar.Literal

/-!
# Documents in pieces

The pieces in which a document is written to a file make up its text (`join_documentPieces`).
-/

namespace Chomsky

namespace Json

theorem join_singleton (s : String) : String.join [s] = s := by
  rw [String.join_cons, String.join_nil, String.append_empty]

theorem join_leadItem (lead : String) (v : Json) (parts : List String) :
    String.join (leadItem lead v parts) = lead ++ String.join parts := by
  rw [leadItem]
  split
  · exact join_singleton _
  · exact String.join_cons

/-- The two pieces behind the last item or field. -/
theorem join_ending (s t : String) : String.join [s, t] = s ++ t := by
  rw [String.join_cons, join_singleton]

mutual

theorem join_pieces (level : Nat) : ∀ v : Json, String.join (v.pieces level) = v.indented level
  | null => join_singleton _
  | bool _ => join_singleton _
  | int _ => join_singleton _
  | float _ => join_singleton _
  | string _ => join_singleton _
  | array [] => join_singleton _
  | object [] => join_singleton _
  | array (v :: vs) => by
    rw [pieces, if_neg (by simp), String.join_append, join_itemPieces _ _ _ (List.cons_ne_nil v vs),
      join_ending, indented, block, if_neg (by simp [indentedItems])]
    simp only [String.append_assoc]
  | object (f :: fs) => by
    rw [pieces, if_neg (by simp), List.cons_append, String.join_cons, String.join_append,
      join_fieldPieces _ _ _ (List.cons_ne_nil f fs), join_ending, indented, block,
      if_neg (by simp [indentedFields])]
    simp only [String.append_assoc]

/-- The items with their separators, behind what stands in front of the first one. -/
theorem join_itemPieces (level : Nat) (lead : String) : ∀ vs : List Json, vs ≠ [] →
    String.join (itemPieces level lead vs) =
      lead ++ ("," ++ newline level).intercalate (indentedItems level vs)
  | [], h => absurd rfl h
  | [v], _ => by
    rw [itemPieces, itemPieces, List.append_nil, join_leadItem, join_pieces]
    rfl
  | v :: w :: vs, _ => by
    have hrest : indentedItems level (w :: vs) ≠ [] := List.cons_ne_nil _ _
    rw [indentedItems, String.intercalate_cons_of_ne_nil hrest, itemPieces, String.join_append,
      join_leadItem, join_pieces, join_itemPieces level _ (w :: vs) (List.cons_ne_nil w vs)]
    simp only [String.append_assoc]

theorem join_fieldPieces (level : Nat) (lead : String) : ∀ fs : List (String × Json), fs ≠ [] →
    String.join (fieldPieces level lead fs) =
      lead ++ ("," ++ newline level).intercalate (indentedFields level fs)
  | [], h => absurd rfl h
  | [(key, v)], _ => by
    rw [fieldPieces, fieldPieces, List.append_nil, String.join_cons, String.join_cons,
      String.join_cons, join_pieces, ← @String.append_assoc (writeText key)]
    rfl
  | (key, v) :: (key', w) :: fs, _ => by
    have hrest : indentedFields level ((key', w) :: fs) ≠ [] := List.cons_ne_nil _ _
    rw [indentedFields, String.intercalate_cons_of_ne_nil hrest, fieldPieces, String.join_append,
      String.join_cons, String.join_cons, String.join_cons, join_pieces,
      join_fieldPieces level _ ((key', w) :: fs) (List.cons_ne_nil _ fs)]
    simp only [String.append_assoc]

end

theorem join_documentPieces (v : Json) : String.join (documentPieces v) = documentText v := by
  rw [documentPieces, String.join_append, join_pieces, join_singleton]
  rfl

end Json

end Chomsky
