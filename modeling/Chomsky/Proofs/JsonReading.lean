import Chomsky.Proofs.JsonTokens

/-!
# How the reader goes through a text

Whether characters are a text for a value is said by what the reader does on them: `Reads` relates
two of its states if these characters lead from one to the other, wherever they stand. The relation
is closed under appending, blanks may be put in, and a token makes a step. So the characters of an
array are a text for it if those of its items are texts for them (`denotes_array`), whatever blanks
stand between them, and the same goes for the fields of an object (`denotes_object`).
-/

namespace Chomsky.Json

variable {s s₁ s' : State} {stack : List Frame} {v : Json} {t : Token} {c : Char}
  {cs ds gap close rest : List Char} {parts : List (List Char)} {here : Nat}

/-! ## Steps -/

theorem tokensFrom_length (cs rest : List Char) (here : Nat) :
    tokensFrom cs.length here (cs ++ rest) = tokensFrom 0 (here + cs.length) rest := by
  induction cs generalizing here with
  | nil => rfl
  | cons c cs ih =>
    rw [List.length_cons, List.cons_append, tokensFrom, ih]
    congr 1
    omega

/-- Neither the end nor a blank is a token. -/
theorem visible_of_token {n : Nat} (hlast : t.isLast = false) (h : token here cs = (t, n)) :
    ∃ c ds, cs = c :: ds ∧ isSpace c = false := by
  cases cs with
  | nil =>
    cases h
    cases hlast
  | cons c ds =>
    refine ⟨c, ds, rfl, eq_false_of_ne_true fun hspace => ?_⟩
    simp only [isSpace, Bool.or_eq_true, decide_eq_true_eq] at hspace
    rcases hspace with ((rfl | rfl) | rfl) | rfl <;> cases h <;> cases hlast

/-- The token at the head is cut off. -/
theorem tokensFrom_token (hlast : t.isLast = false)
    (h : token here (c :: cs ++ rest) = (t, (c :: cs).length)) :
    tokensFrom 0 here (c :: cs ++ rest) =
      (here, t) :: tokensFrom 0 (here + (c :: cs).length) rest := by
  obtain ⟨d, ds, heq, hspace⟩ := visible_of_token hlast h
  cases heq
  rw [List.cons_append] at h ⊢
  rw [tokensFrom, hspace, h]
  simp only [Bool.false_eq_true, if_false, hlast, List.length_cons, Nat.add_sub_cancel]
  rw [tokensFrom_length, Nat.add_assoc, Nat.add_comm 1]

/-- These characters take the reader from one state to another, wherever they stand, if what stands
behind them does not continue a number. -/
def Reads (s : State) (cs : List Char) (s' : State) : Prop :=
  ∀ stop here rest, Breaks rest →
    run stop s (tokensFrom 0 here (cs ++ rest)) = run stop s' (tokensFrom 0 (here + cs.length) rest)

theorem Reads.nil : Reads s [] s := fun _ _ _ _ => rfl

theorem Reads.append (h : Reads s cs s₁) (hds : Breaks ds) (h' : Reads s₁ ds s') :
    Reads s (cs ++ ds) s' := by
  intro stop here rest hrest
  rw [List.append_assoc, h _ _ _ (hds.append hrest), h' _ _ _ hrest, List.length_append,
    Nat.add_assoc]

theorem Reads.blank (hc : isSpace c = true) (h : Reads s cs s') : Reads s (c :: cs) s' := by
  intro stop here rest hrest
  rw [List.cons_append, tokensFrom, hc]
  simp only [if_true]
  rw [h _ _ _ hrest, List.length_cons]
  congr 2
  omega

/-- Between two tokens these characters do not count. -/
def Blank (gap : List Char) : Prop := ∀ c ∈ gap, isSpace c = true

theorem Reads.blanks (hgap : Blank gap) (h : Reads s cs s') : Reads s (gap ++ cs) s' := by
  induction gap with
  | nil => exact h
  | cons c gap ih =>
    obtain ⟨hc, hgap⟩ := List.forall_mem_cons.mp hgap
    exact (ih hgap).blank hc

/-- A token makes one step. -/
theorem Reads.token (hlast : t.isLast = false)
    (htoken : ∀ here rest, Breaks rest → token here (cs ++ rest) = (t, cs.length))
    (hstep : ∀ here, step s here t = .ok s') : Reads s cs s' := by
  intro stop here rest hrest
  obtain ⟨c, ds, hcs, -⟩ := visible_of_token hlast (htoken here [] breaks_nil)
  rw [List.append_nil] at hcs
  subst hcs
  rw [tokensFrom_token hlast (htoken _ _ hrest), run, hstep]
  rfl

/-- The character is a token whatever follows, and stands in no number. -/
structure Mark (c : Char) (t : Token) : Prop where
  not_last : t.isLast = false
  token_eq : ∀ here rest, token here (c :: rest) = (t, 1)
  breaks : ∀ rest, Breaks (c :: rest)

theorem mark_openArray : Mark '[' .openArray :=
  ⟨rfl, fun _ _ => rfl, fun _ => breaks_cons (by decide)⟩

theorem mark_closeArray : Mark ']' .closeArray :=
  ⟨rfl, fun _ _ => rfl, fun _ => breaks_cons (by decide)⟩

theorem mark_openObject : Mark '\x7b' .openObject :=
  ⟨rfl, fun _ _ => rfl, fun _ => breaks_cons (by decide)⟩

theorem mark_closeObject : Mark '\x7d' .closeObject :=
  ⟨rfl, fun _ _ => rfl, fun _ => breaks_cons (by decide)⟩

theorem mark_comma : Mark ',' .comma :=
  ⟨rfl, fun _ _ => rfl, fun _ => breaks_cons (by decide)⟩

theorem mark_colon : Mark ':' .colon :=
  ⟨rfl, fun _ _ => rfl, fun _ => breaks_cons (by decide)⟩

theorem Breaks.blanks (hgap : Blank gap) (h : Breaks cs) : Breaks (gap ++ cs) := by
  refine Breaks.append ?_ h
  cases gap with
  | nil => exact breaks_nil
  | cons c gap =>
    have hc := hgap c List.mem_cons_self
    simp only [isSpace, Bool.or_eq_true, decide_eq_true_eq] at hc
    rcases hc with ((rfl | rfl) | rfl) | rfl <;> exact breaks_cons (by decide)

theorem Reads.mark (hc : Mark c t) (hstep : ∀ here, step s here t = .ok s₁)
    (h : Reads s₁ cs s') : Reads s (c :: cs) s' := by
  intro stop here rest hrest
  have hcut := @tokensFrom_token t c [] (cs ++ rest) here hc.not_last (hc.token_eq here _)
  rw [List.cons_append]
  refine (congrArg (run stop s) hcut).trans ?_
  rw [run, hstep]
  refine (h _ _ _ hrest).trans ?_
  congr 2
  show here + 1 + cs.length = here + (cs.length + 1)
  omega

/-! ## Values -/

/-- A value may begin in this state, and it stands on this stack. -/
def Opens (s : State) (stack : List Frame) : Prop :=
  ∀ here t, t ≠ .closeArray → step s here t = startValue stack here t

theorem opens_value : Opens ⟨stack, .value⟩ stack := fun _ _ _ => rfl

theorem opens_item : Opens ⟨stack, .item⟩ (.items [] :: stack) := by
  intro here t ht
  cases t with
  | closeArray => exact absurd rfl ht
  | _ => rfl

/-- The characters are a text for the value. -/
def Denotes (cs : List Char) (v : Json) : Prop :=
  ∀ s stack, Opens s stack → Reads s cs ⟨stack, .separator v⟩

theorem denotes_writeText (s : String) : Denotes (writeText s).toList (.string s) := by
  intro s₀ stack hs
  exact Reads.token rfl (fun _ _ _ => token_writeText s) fun here => hs here _ (by simp)

theorem denotes_toString {n : Int} (hn : n.natAbs < 10 ^ Text.maxIntegerDigits) :
    Denotes (toString n).toList (.int n) := by
  intro s₀ stack hs
  exact Reads.token rfl (fun _ _ => token_toString n hn) fun here => hs here _ (by simp)

theorem denotes_null : Denotes "null".toList .null := by
  intro s₀ stack hs
  exact Reads.token rfl (fun _ _ _ => token_null) fun here => hs here _ (by simp)

theorem denotes_bool (b : Bool) : Denotes (if b then "true" else "false").toList (.bool b) := by
  intro s₀ stack hs
  exact Reads.token rfl (fun _ _ _ => token_bool b) fun here => hs here _ (by simp)

/-! ## Arrays -/

/-- The items behind those that are read already, and the end of the array. -/
theorem reads_items {done vs : List Json} (hgap : Blank gap) (hclose : Blank close)
    (hs : Opens s (.items done :: stack)) (hv : Denotes cs v) (h : List.Forall₂ Denotes parts vs) :
    Reads s ((',' :: gap).intercalate (cs :: parts) ++ (close ++ [']']))
      ⟨stack, .separator (.array (done.reverse ++ v :: vs))⟩ := by
  -- On the items behind `v`: each in turn becomes the one that is read next.
  induction h generalizing s done cs v with
  | nil =>
    rw [List.intercalate_singleton]
    refine (hv s _ hs).append (Breaks.blanks hclose (mark_closeArray.breaks _)) ?_
    refine Reads.blanks hclose (Reads.mark mark_closeArray (fun _ => rfl) ?_)
    rw [← List.reverse_cons]
    exact Reads.nil
  | @cons ds w parts vs hw h ih =>
    rw [List.intercalate_cons_cons, List.append_assoc, List.append_assoc]
    refine (hv s _ hs).append (mark_comma.breaks _) ?_
    refine Reads.mark mark_comma (fun _ => rfl) (Reads.blanks hgap ?_)
    have hrest := ih (opens_value : Opens _ (.items (v :: done) :: stack)) hw
    rw [List.reverse_cons, List.append_assoc] at hrest
    exact hrest

theorem denotes_array {vs : List Json} (hgap : Blank gap) (hclose : Blank close)
    (h : List.Forall₂ Denotes parts vs) (hne : parts ≠ []) :
    Denotes ('[' :: (gap ++ ((',' :: gap).intercalate parts ++ (close ++ [']'])))) (.array vs) := by
  intro s stack hs
  refine Reads.mark mark_openArray (fun here => hs here _ (by simp)) (Reads.blanks hgap ?_)
  cases h with
  | nil => exact absurd rfl hne
  | cons hv h => exact reads_items hgap hclose opens_item hv h

theorem denotes_emptyArray : Denotes ['[', ']'] (.array []) := by
  intro s stack hs
  refine Reads.mark mark_openArray (fun here => hs here _ (by simp)) ?_
  exact Reads.mark mark_closeArray (fun _ => rfl) Reads.nil

/-! ## Objects -/

/-- A key may begin in this state, behind these fields. -/
def OpensKey (s : State) (stack : List Frame) (done : List (String × Json)) : Prop :=
  ∀ here key, step s here (.text key) = .ok ⟨stack, .colon done key⟩

theorem opensKey_firstKey : OpensKey ⟨stack, .firstKey⟩ stack [] := fun _ _ => rfl

theorem opensKey_key {done : List (String × Json)} : OpensKey ⟨stack, .key done⟩ stack done :=
  fun _ _ => rfl

/-- The characters are a text for the field. -/
def DenotesField (cs : List Char) (f : String × Json) : Prop :=
  ∀ s stack done, OpensKey s stack done → Reads s cs ⟨.fields done f.1 :: stack, .separator f.2⟩

theorem denotesField {key : String} (hgap : Blank gap) (hv : Denotes cs v) :
    DenotesField ((writeText key).toList ++ ':' :: (gap ++ cs)) (key, v) := by
  intro s stack done hs
  have hkey : Reads s (writeText key).toList ⟨stack, .colon done key⟩ :=
    Reads.token rfl (fun _ _ _ => token_writeText key) fun here => hs here key
  refine hkey.append (mark_colon.breaks _) (Reads.mark mark_colon (fun _ => rfl) ?_)
  exact Reads.blanks hgap (hv _ _ opens_value)

theorem setField_of_notMem {fields : List (String × Json)} {key : String}
    (h : key ∉ fields.map Prod.fst) : setField fields key v = fields ++ [(key, v)] := by
  rw [setField, if_neg]
  simpa using h

theorem setField_last {done fs : List (String × Json)} {f : String × Json}
    (hkeys : ((done ++ f :: fs).map Prod.fst).Nodup) :
    setField done f.1 f.2 = done ++ [f] := by
  refine setField_of_notMem fun hmem => ?_
  rw [List.map_append, List.map_cons] at hkeys
  exact (List.nodup_append.mp hkeys).2.2 _ hmem _ List.mem_cons_self rfl

/-- The fields behind those that are read already, and the end of the object. -/
theorem reads_fields {done fs : List (String × Json)} {f : String × Json} (hgap : Blank gap)
    (hclose : Blank close) (hs : OpensKey s stack done) (hf : DenotesField cs f)
    (h : List.Forall₂ DenotesField parts fs)
    (hkeys : ((done ++ f :: fs).map Prod.fst).Nodup) :
    Reads s ((',' :: gap).intercalate (cs :: parts) ++ (close ++ ['\x7d']))
      ⟨stack, .separator (.object (done ++ f :: fs))⟩ := by
  induction h generalizing s done cs f with
  | nil =>
    rw [List.intercalate_singleton]
    refine (hf s _ _ hs).append (Breaks.blanks hclose (mark_closeObject.breaks _)) ?_
    refine Reads.blanks hclose (Reads.mark mark_closeObject (fun _ => rfl) ?_)
    rw [setField_last hkeys]
    exact Reads.nil
  | @cons ds f' parts fs hf' h ih =>
    rw [List.intercalate_cons_cons, List.append_assoc, List.append_assoc]
    refine (hf s _ _ hs).append (mark_comma.breaks _) ?_
    refine Reads.mark mark_comma (fun _ => rfl) (Reads.blanks hgap ?_)
    rw [setField_last hkeys]
    rw [List.append_cons done f (f' :: fs)] at hkeys ⊢
    exact ih opensKey_key hf' hkeys

theorem denotes_object {fs : List (String × Json)} (hgap : Blank gap) (hclose : Blank close)
    (h : List.Forall₂ DenotesField parts fs) (hne : parts ≠ []) (hkeys : (fs.map Prod.fst).Nodup) :
    Denotes ('\x7b' :: (gap ++ ((',' :: gap).intercalate parts ++ (close ++ ['\x7d']))))
      (.object fs) := by
  intro s stack hs
  refine Reads.mark mark_openObject (fun here => hs here _ (by simp)) (Reads.blanks hgap ?_)
  cases h with
  | nil => exact absurd rfl hne
  | cons hf h => exact reads_fields hgap hclose opensKey_firstKey hf h hkeys

theorem denotes_emptyObject : Denotes ['\x7b', '\x7d'] (.object []) := by
  intro s stack hs
  refine Reads.mark mark_openObject (fun here => hs here _ (by simp)) ?_
  exact Reads.mark mark_closeObject (fun _ => rfl) Reads.nil

/-! ## Documents -/

/-- What is written is read, whatever blanks stand behind it. -/
theorem Denotes.read_eq (h : Denotes cs v) (hgap : Blank gap) : read (cs ++ gap) = .ok v := by
  have hreads : Reads ⟨[], .value⟩ (cs ++ gap) ⟨[], .separator v⟩ := by
    have hbreaks : Breaks gap := by simpa using Breaks.blanks hgap breaks_nil
    refine (h _ _ opens_value).append hbreaks ?_
    simpa using Reads.blanks hgap Reads.nil
  have hrun : run (cs ++ gap).length ⟨[], .value⟩ (tokens (cs ++ gap)) = .ok v := by
    have hall := hreads (cs ++ gap).length 0 [] breaks_nil
    rw [List.append_nil] at hall
    exact hall
  rw [read, if_neg, hrun]
  -- A byte order mark is no token.
  intro hmark
  obtain ⟨rest, hrest⟩ := List.head?_eq_some_iff.mp hmark
  rw [hrest] at hrun
  cases hrun

end Chomsky.Json
