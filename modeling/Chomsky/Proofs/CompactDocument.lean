import Chomsky.Proofs.JsonDocument
import Mathlib.Data.List.Forall2

/-!
# Values in the compact layout

The compact layout writes the fields of an object in the order of their keys, so what is read back
is the value with its fields in that order (`read_compact`). That value is like the one that was
written (`like_sorted`): only the order of fields may differ.
-/

namespace Chomsky.Json

variable {v : Json} {fs gs : List (String × Json)} {vs : List Json}

mutual

/-- Nothing in the value is a double, and no object has two fields with one key. -/
def Plain : Json → Prop
  | null => True
  | bool _ => True
  | int _ => True
  | float _ => False
  | string _ => True
  | array items => PlainItems items
  | object fields => (fields.map Prod.fst).Nodup ∧ PlainFields fields

def PlainItems : List Json → Prop
  | [] => True
  | v :: rest => Plain v ∧ PlainItems rest

def PlainFields : List (String × Json) → Prop
  | [] => True
  | (_, v) :: rest => Plain v ∧ PlainFields rest

end

theorem longInteger_iff {n : Nat} :
    Text.maxIntegerDigits < (Nat.toDigits 10 n).length ↔ 10 ^ Text.maxIntegerDigits ≤ n := by
  rw [← Nat.not_le, Nat.length_toDigits_le_iff (by decide) (by decide), Nat.not_lt]

mutual

/-- A plain value is read as it was written if its integers are not too long to be written. -/
theorem Plain.exact : ∀ {v : Json}, v.Plain → v.hasLongInteger = false → v.Exact
  | null, _, _ => trivial
  | bool _, _, _ => trivial
  | int _, _, hshort => Nat.lt_of_not_le (mt longInteger_iff.mpr (of_decide_eq_false hshort))
  | float _, h, _ => h.elim
  | string _, _, _ => trivial
  | array _, h, hshort => PlainItems.exact h hshort
  | object _, h, hshort => ⟨h.1, PlainFields.exact h.2 hshort⟩

theorem PlainItems.exact : ∀ {vs : List Json}, PlainItems vs → itemsHaveLongInteger vs = false →
    ExactItems vs
  | [], _, _ => trivial
  | _ :: _, h, hshort => by
    obtain ⟨hv, hvs⟩ := Bool.or_eq_false_iff.mp hshort
    exact ⟨Plain.exact h.1 hv, PlainItems.exact h.2 hvs⟩

theorem PlainFields.exact : ∀ {fs : List (String × Json)}, PlainFields fs →
    fieldsHaveLongInteger fs = false → ExactFields fs
  | [], _, _ => trivial
  | _ :: _, h, hshort => by
    obtain ⟨hv, hfs⟩ := Bool.or_eq_false_iff.mp hshort
    exact ⟨Plain.exact h.1 hv, PlainFields.exact h.2 hfs⟩

end

/-! ## Fields in order -/

/-- The fields in the order of their keys. -/
def inKeyOrder {α : Type} (fields : List (String × α)) : List (String × α) :=
  fields.mergeSort fun f g => !decide (g.1 < f.1)

mutual

/-- The value with the fields of every object in the order of their keys. -/
def sorted : Json → Json
  | null => null
  | bool b => bool b
  | int n => int n
  | float x => float x
  | string s => string s
  | array items => array (sortedItems items)
  | object fields => object (inKeyOrder (sortedFields fields))

def sortedItems : List Json → List Json
  | [] => []
  | v :: rest => sorted v :: sortedItems rest

def sortedFields : List (String × Json) → List (String × Json)
  | [] => []
  | (key, v) :: rest => (key, sorted v) :: sortedFields rest

end

theorem inKeyOrder_perm {α : Type} (fields : List (String × α)) : (inKeyOrder fields).Perm fields :=
  List.mergeSort_perm _ _

theorem inKeyOrder_map {α β : Type} (F : α → β) (fields : List (String × α)) :
    inKeyOrder (fields.map fun f => (f.1, F f.2)) =
      (inKeyOrder fields).map fun f => (f.1, F f.2) := by
  unfold inKeyOrder
  rw [List.map_mergeSort]
  exact fun _ _ _ _ => rfl

theorem compactFields_eq (fs : List (String × Json)) :
    compactFields fs = fs.map fun f => (f.1, f.2.compact) := by
  induction fs with
  | nil => rfl
  | cons f fs ih => rw [compactFields, ih, List.map_cons]

theorem sortedFields_eq (fs : List (String × Json)) :
    sortedFields fs = fs.map fun f => (f.1, f.2.sorted) := by
  induction fs with
  | nil => rfl
  | cons f fs ih => rw [sortedFields, ih, List.map_cons]

theorem sorted_object : (object fs).sorted = object ((inKeyOrder fs).map fun f => (f.1, f.2.sorted)) := by
  rw [sorted, sortedFields_eq, inKeyOrder_map]

theorem toList_enclosed (opening closing : String) (parts : List String) :
    (opening ++ separated parts ++ closing).toList =
      opening.toList ++ ([','].intercalate (parts.map String.toList) ++ closing.toList) := by
  rw [String.toList_append, String.toList_append, separated, String.toList_intercalate,
    List.append_assoc]
  rfl

/-- The text of a field on one line. -/
def fieldText (f : String × Json) : List Char :=
  (writeText f.1).toList ++ ':' :: f.2.compact.toList

theorem toList_compact_object : (object fs).compact.toList =
    '\x7b' :: ([','].intercalate ((inKeyOrder fs).map fieldText) ++ ['\x7d']) := by
  have hfields : (compactFields fs).mergeSort (fun f g => !decide (g.1 < f.1)) =
      (inKeyOrder fs).map fun f => (f.1, f.2.compact) := by
    rw [compactFields_eq]
    exact inKeyOrder_map compact fs
  rw [compact]
  simp only [hfields]
  rw [toList_enclosed, List.map_map, List.map_map]
  refine congrArg (fun parts => '\x7b' :: ([','].intercalate parts ++ ['\x7d'])) ?_
  refine List.map_congr_left fun f _ => ?_
  simp only [Function.comp_apply, String.toList_append, List.append_assoc, fieldText]
  rfl

/-! ## Reading -/

theorem blank_nil : Blank [] := nofun

theorem denotesField_fieldText {f : String × Json} (h : Denotes f.2.compact.toList f.2.sorted) :
    DenotesField (fieldText f) (f.1, f.2.sorted) := by
  have hfield : DenotesField ((writeText f.1).toList ++ ':' :: ([] ++ f.2.compact.toList))
      (f.1, f.2.sorted) := denotesField blank_nil h
  rwa [List.nil_append] at hfield

/-- An object is read with its fields in order, if its values are. -/
theorem denotes_compactObject (hkeys : (fs.map Prod.fst).Nodup)
    (hvalues : ∀ f ∈ fs, Denotes f.2.compact.toList f.2.sorted) :
    Denotes (object fs).compact.toList (object fs).sorted := by
  have hperm := inKeyOrder_perm fs
  have hparts : List.Forall₂ DenotesField ((inKeyOrder fs).map fieldText)
      ((inKeyOrder fs).map fun f => (f.1, f.2.sorted)) := by
    rw [List.forall₂_map_left_iff, List.forall₂_map_right_iff, List.forall₂_same]
    exact fun f hf => denotesField_fieldText (hvalues f (hperm.mem_iff.mp hf))
  have hkeys' : (((inKeyOrder fs).map fun f => (f.1, f.2.sorted)).map Prod.fst).Nodup := by
    rw [List.map_map]
    exact (hperm.map Prod.fst).nodup_iff.mpr hkeys
  rw [toList_compact_object, sorted_object]
  generalize (inKeyOrder fs).map fieldText = parts at hparts
  generalize ((inKeyOrder fs).map fun f => (f.1, f.2.sorted)) = fields at hparts hkeys'
  cases hparts with
  | nil => exact denotes_emptyObject
  | cons hf h =>
    exact denotes_object blank_nil blank_nil (.cons hf h) (List.cons_ne_nil _ _) hkeys'

mutual

theorem denotes_compact : ∀ v : Json, v.Exact → Denotes v.compact.toList v.sorted
  | null, _ => denotes_null
  | bool b, _ => denotes_bool b
  | int _, h => denotes_toString h
  | string s, _ => denotes_writeText s
  | array [], _ => denotes_emptyArray
  | array (v :: vs), h => by
    have hparts := denotes_compactItems (v :: vs) h
    rw [compact, toList_enclosed]
    exact denotes_array blank_nil blank_nil hparts (by simp [compactItems])
  | object fs, h => denotes_compactObject h.1 (denotes_compactFields fs h.2)

theorem denotes_compactItems : ∀ vs : List Json, ExactItems vs →
    List.Forall₂ Denotes ((compactItems vs).map String.toList) (sortedItems vs)
  | [], _ => .nil
  | v :: vs, h => .cons (denotes_compact v h.1) (denotes_compactItems vs h.2)

theorem denotes_compactFields : ∀ fs : List (String × Json), ExactFields fs →
    ∀ f ∈ fs, Denotes f.2.compact.toList f.2.sorted
  | [], _, _, hf => absurd hf List.not_mem_nil
  | (_, v) :: fs, h, f, hf => by
    rcases List.mem_cons.mp hf with rfl | hf
    · exact denotes_compact v h.1
    · exact denotes_compactFields fs h.2 f hf

end

/-- The compact text of a value is read as the value with its fields in order. -/
theorem read_compact (h : v.Exact) : read v.compact.toList = .ok v.sorted := by
  have hread := (denotes_compact v h).read_eq blank_nil
  rwa [List.append_nil] at hread

/-! ## Likeness -/

mutual

/-- The values are equal but for the order of fields: two objects are alike if they have equally many
fields and every key of the first leads to a like value in the second. -/
def Like : Json → Json → Prop
  | null, null => True
  | bool b, bool c => b = c
  | int m, int n => m = n
  | float x, float y => (x == y) = true
  | string s, string t => s = t
  | array vs, array ws => LikeItems vs ws
  | object fs, object gs => fs.length = gs.length ∧ LikeFields fs gs
  | _, _ => False

def LikeItems : List Json → List Json → Prop
  | [], [] => True
  | v :: vs, w :: ws => Like v w ∧ LikeItems vs ws
  | _, _ => False

def LikeFields : List (String × Json) → List (String × Json) → Prop
  | [], _ => True
  | (key, v) :: fs, gs => (∃ w, gs.lookup key = some w ∧ Like v w) ∧ LikeFields fs gs

end

theorem likeFields_iff :
    LikeFields fs gs ↔ ∀ f ∈ fs, ∃ w, gs.lookup f.1 = some w ∧ f.2.Like w := by
  induction fs with
  | nil => simp [LikeFields]
  | cons f fs ih => rw [LikeFields, ih, List.forall_mem_cons]

/-- Under distinct keys every field is found by its key. -/
theorem lookup_of_mem (hkeys : (gs.map Prod.fst).Nodup) {key : String} (h : (key, v) ∈ gs) :
    gs.lookup key = some v := by
  obtain ⟨before, after, rfl⟩ := List.append_of_mem h
  refine List.lookup_eq_some_iff.mpr ⟨before, after, rfl, fun f hf => ?_⟩
  rw [List.map_append, List.map_cons] at hkeys
  exact bne_iff_ne.mpr
    ((List.nodup_append.mp hkeys).2.2 _ (List.mem_map_of_mem hf) _ List.mem_cons_self).symm

theorem like_sortedObject (hkeys : (fs.map Prod.fst).Nodup)
    (hvalues : ∀ f ∈ fs, f.2.Like f.2.sorted) : (object fs).Like (object fs).sorted := by
  have hperm := inKeyOrder_perm fs
  rw [sorted_object]
  refine ⟨by rw [List.length_map, hperm.length_eq], likeFields_iff.mpr fun f hf => ?_⟩
  refine ⟨_, lookup_of_mem ?_ (List.mem_map_of_mem (hperm.mem_iff.mpr hf)), hvalues f hf⟩
  rw [List.map_map]
  exact (hperm.map Prod.fst).nodup_iff.mpr hkeys

mutual

/-- Putting the fields in order makes a like value. -/
theorem like_sorted : ∀ v : Json, v.Plain → v.Like v.sorted
  | null, _ => trivial
  | bool _, _ => rfl
  | int _, _ => rfl
  | string _, _ => rfl
  | array vs, h => like_sortedItems vs h
  | object fs, h => like_sortedObject h.1 (like_sortedFields fs h.2)

theorem like_sortedItems : ∀ vs : List Json, PlainItems vs → LikeItems vs (sortedItems vs)
  | [], _ => trivial
  | v :: vs, h => ⟨like_sorted v h.1, like_sortedItems vs h.2⟩

theorem like_sortedFields : ∀ fs : List (String × Json), PlainFields fs →
    ∀ f ∈ fs, f.2.Like f.2.sorted
  | [], _, _, hf => absurd hf List.not_mem_nil
  | (_, v) :: fs, h, f, hf => by
    rcases List.mem_cons.mp hf with rfl | hf
    · exact like_sorted v h.1
    · exact like_sortedFields fs h.2 f hf

end

end Chomsky.Json
