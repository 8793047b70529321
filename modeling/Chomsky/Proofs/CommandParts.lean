import Chomsky.CommandLine.Run
import Chomsky.Proofs.DiskFiles
import Chomsky.Proofs.DocumentPieces
import Chomsky.Proofs.WrittenNames

/-!
# The parts of a run of the command

On a given disk, a part of a run either `Passes`, with an answer, a text that it prints and a disk
that it leaves, or it `Fails`: it ends the run without success. Each function of the command has one
lemma that tells when it does which, and what is on the disk then. What goes to a file in several
texts is there up to the first one that the file cannot hold (`record_cases`, `writePieces_cases`).
-/

namespace Chomsky.CommandLine

namespace Surroundings

variable {w : Surroundings} {text stem name : String} {texts names : List String} {g : Grammar}

/-! ## What files can hold -/

/-- A file can hold the text. -/
def Holds (w : Surroundings) (text : String) : Prop := ∀ c ∈ text.toList, w.surrogate? c = none

theorem encodingFault?_eq_none_iff : w.encodingFault? text = none ↔ w.Holds text := by
  have hnil : (text.toList.dropWhile fun c => (w.surrogate? c).isNone) = [] ↔ w.Holds text := by
    simp only [List.dropWhile_eq_nil_iff, Option.isNone_iff_eq_none, Holds]
  rw [← hnil, encodingFault?]
  split
  · next h => exact iff_of_true rfl h
  · next h => exact iff_of_false nofun fun hrest => h hrest

theorem encodingFault?_of_not_holds (h : ¬ w.Holds text) :
    ∃ fault, w.encodingFault? text = some fault :=
  Option.ne_none_iff_exists'.mp (mt encodingFault?_eq_none_iff.mp h)

theorem holds_join : w.Holds (String.join texts) ↔ ∀ text ∈ texts, w.Holds text := by
  simp only [Holds, String.toList_join, List.mem_flatMap]
  exact ⟨fun h text htext c hc => h c ⟨text, htext, hc⟩,
    fun h c ⟨text, htext, hc⟩ => h text htext c hc⟩

theorem kept_nil : w.kept [] = "" := rfl

theorem kept_cons_of_holds (h : w.Holds text) : w.kept (text :: texts) = text ++ w.kept texts := by
  have hnone : (w.encodingFault? text).isNone = true :=
    Option.isNone_iff_eq_none.mpr (encodingFault?_eq_none_iff.mpr h)
  rw [kept, List.takeWhile_cons, if_pos hnone, String.join_cons]
  rfl

theorem kept_cons_of_not_holds (h : ¬ w.Holds text) : w.kept (text :: texts) = "" := by
  have hsome : ¬ (w.encodingFault? text).isNone = true := fun hnone =>
    h (encodingFault?_eq_none_iff.mp (Option.isNone_iff_eq_none.mp hnone))
  rw [kept, List.takeWhile_cons, if_neg hsome, String.join_nil]

theorem kept_of_holds (h : ∀ text ∈ texts, w.Holds text) : w.kept texts = String.join texts := by
  induction texts with
  | nil => rfl
  | cons text texts ih =>
    obtain ⟨htext, htexts⟩ := List.forall_mem_cons.mp h
    rw [kept_cons_of_holds htext, ih htexts, String.join_cons]

theorem surrogate?_of_basic (w : Surroundings) {c : Char} (h : c.toNat < 0x10000) :
    w.surrogate? c = none := by
  refine Option.eq_none_iff_forall_ne_some.mpr fun code hcode => ?_
  exact absurd (w.le_of_surrogate c (hcode ▸ rfl)) (Nat.not_le_of_lt h)

theorem holds_of_drawn (hnames : ∀ name ∈ names, w.Holds name)
    (h : ∀ c ∈ text.toList, Drawn names c) : w.Holds text := by
  intro c hc
  rcases h c hc with hbasic | ⟨name, hname, hmem⟩
  · exact w.surrogate?_of_basic hbasic
  · exact hnames name hname c hmem

theorem holds_append (h : w.Holds text) (hbasic : ∀ c ∈ name.toList, c.toNat < 0x10000) :
    w.Holds (text ++ name) := by
  rw [Holds, String.toList_append, List.forall_mem_append]
  exact ⟨h, fun c hc => w.surrogate?_of_basic (hbasic c hc)⟩

theorem holds_of_nameFrom (hnames : ∀ name ∈ g.names, w.Holds name) (hstem : w.Holds stem)
    (h : g.NameFrom stem name) : w.Holds name := by
  cases h with
  | old h => exact hnames name h
  | freshStart =>
    exact holds_append (hnames _ List.mem_cons_self) (List.forall_mem_singleton.mpr (by decide))
  | numbered n =>
    refine holds_append hstem fun c hc => ?_
    have hfigure := Decimal.printable_of_mem_figures (Decimal.toString_subset_figures n hc)
    exact Nat.lt_trans (isPrintableAscii_iff.mp hfigure).2 (by decide)

end Surroundings

namespace Command

variable {w : Surroundings} {times : Nat → Event.Timestamp}

variable {α β : Type} {m : Command α} {f : α → Command β} {a : α} {b : β} {text text' : String}
  {c c' : Console} {d d' d'' : Disk} {ending : Ending}

/-! ## Parts of a run -/

/-- How a part of a run ends, and what the console holds then. -/
def exec (m : Command α) (c : Console) : Except Ending α × Console := m.run.run c

/-- On the disk `d`, the part answers `a`, prints the text and leaves the disk `d'`. -/
def Passes (m : Command α) (d : Disk) (a : α) (text : String) (d' : Disk) : Prop :=
  ∀ c, c.disk = d → ∃ c', exec m c = (.ok a, c') ∧ c'.out = c.out ++ text ∧ c'.disk = d'

/-- On the disk `d`, the part ends the run without success and leaves the disk `d'`. -/
def Fails (m : Command α) (d d' : Disk) : Prop :=
  ∀ c, c.disk = d →
    ∃ ending c', exec m c = (.error ending, c') ∧ ending ≠ .exit 0 ∧ c'.disk = d'

theorem exec_bind_of_ok (h : exec m c = (.ok a, c')) : exec (m >>= f) c = exec (f a) c' := by
  rw [exec] at h ⊢
  rw [ExceptT.run_bind, StateT.run_bind, h]
  rfl

theorem exec_bind_of_error (h : exec m c = (.error ending, c')) :
    exec (m >>= f) c = (.error ending, c') := by
  rw [exec] at h ⊢
  rw [ExceptT.run_bind, StateT.run_bind, h]
  rfl

theorem Passes.bind (h : Passes m d a text d') (hf : Passes (f a) d' b text' d'') :
    Passes (m >>= f) d b (text ++ text') d'' := by
  intro c hc
  obtain ⟨c', hexec, hout, hdisk⟩ := h c hc
  obtain ⟨c'', hexec', hout', hdisk'⟩ := hf c' hdisk
  refine ⟨c'', (exec_bind_of_ok hexec).trans hexec', ?_, hdisk'⟩
  rw [hout', hout, String.append_assoc]

theorem Passes.bind_silent (h : Passes m d a text d') (hf : Passes (f a) d' b "" d'') :
    Passes (m >>= f) d b text d'' := by
  have hboth := h.bind hf
  rwa [String.append_empty] at hboth

theorem Passes.silent_bind (h : Passes m d a "" d') (hf : Passes (f a) d' b text d'') :
    Passes (m >>= f) d b text d'' := by
  have hboth := h.bind hf
  rwa [String.empty_append] at hboth

theorem Passes.bind_fails (h : Passes m d a text d') (hf : Fails (f a) d' d'') :
    Fails (m >>= f) d d'' := by
  intro c hc
  obtain ⟨c', hexec, -, hdisk⟩ := h c hc
  rw [exec_bind_of_ok hexec]
  exact hf c' hdisk

theorem Fails.bind (h : Fails m d d') : Fails (m >>= f) d d' := by
  intro c hc
  obtain ⟨ending, c', hexec, hend⟩ := h c hc
  exact ⟨ending, c', exec_bind_of_error hexec, hend⟩

theorem passes_get_bind {f : Console → Command β}
    (hf : ∀ c, c.disk = d → Passes (f c) d b text d') : Passes (get >>= f) d b text d' :=
  fun c hc => hf c hc c hc

theorem fails_get_bind {f : Console → Command β} (hf : ∀ c, c.disk = d → Fails (f c) d d') :
    Fails (get >>= f) d d' :=
  fun c hc => hf c hc c hc

theorem passes_pure (a : α) : Passes (pure a) d a "" d :=
  fun c hc => ⟨c, rfl, String.append_empty.symm, hc⟩

theorem passes_print (text : String) : Passes (print text) d () text d :=
  fun _ hc => ⟨_, rfl, rfl, hc⟩

theorem passes_printLine (line : String) : Passes (printLine line) d () (line ++ "\n") d :=
  passes_print _

theorem passes_warn (line : String) : Passes (warn line) d () "" d :=
  fun _ hc => ⟨_, rfl, String.append_empty.symm, hc⟩

theorem fails_throw (fault : Fault) : Fails (throw (.fault fault) : Command α) d d :=
  fun c hc => ⟨.fault fault, c, rfl, nofun, hc⟩

theorem fails_refuse (message : String) : Fails (refuse message : Command α) d d :=
  fun _ hc => ⟨.exit 2, _, rfl, by decide, hc⟩

/-! ## The grammar -/

/-- The grammar in the file at the path, or the worked example if no path is given. -/
def sourceGrammar? (d : Disk) : Option Path → Option Grammar
  | none => some .workedExample
  | some p =>
    (d.text? p).bind fun text => (Grammar.read (String.ofList (unifyLines text.toList))).toOption

def sourceLine : Option Path → String
  | none => "using the built-in example grammar"
  | some p => s!"reading grammar from {p.text}"

theorem readGrammar_cases (p : Path) (d : Disk) :
    (∃ g, sourceGrammar? d (some p) = some g ∧ Passes (readGrammar p) d g "" d) ∨
      sourceGrammar? d (some p) = none ∧ Fails (readGrammar p) d d := by
  rw [sourceGrammar?, Disk.text?]
  cases hread : d.read p with
  | error fault =>
    refine .inr ⟨rfl, fails_get_bind fun c hc => ?_⟩
    rw [hc, hread]
    exact (fails_throw (.disk fault)).bind
  | ok text =>
    rw [Except.toOption, Option.bind_some]
    cases hgrammar : Grammar.read (String.ofList (unifyLines text.toList)) with
    | ok g =>
      refine .inl ⟨g, rfl, passes_get_bind fun c hc => ?_⟩
      rw [hc, hread]
      refine (passes_pure text).silent_bind ?_
      simp only [hgrammar]
      exact passes_pure g
    | error error =>
      refine .inr ⟨rfl, fails_get_bind fun c hc => ?_⟩
      rw [hc, hread]
      refine (passes_pure text).bind_fails ?_
      simp only [hgrammar]
      split
      · contradiction
      · exact fails_refuse _
      · split
        · exact fails_throw _
        · exact fails_refuse _

theorem inputGrammar_cases (p : Option Path) (d : Disk) :
    (∃ g, sourceGrammar? d p = some g ∧
        Passes (inputGrammar p) d g (sourceLine p ++ "\n") d) ∨
      sourceGrammar? d p = none ∧ Fails (inputGrammar p) d d := by
  cases p with
  | none => exact .inl ⟨.workedExample, rfl, (passes_printLine _).bind_silent (passes_pure _)⟩
  | some p =>
    obtain ⟨g, hg, hpasses⟩ | ⟨hg, hfails⟩ := readGrammar_cases p d
    · exact .inl ⟨g, hg, (passes_printLine _).bind_silent hpasses⟩
    · exact .inr ⟨hg, (passes_printLine _).bind_fails hfails⟩

/-! ## Files -/

theorem writeFile_cases (p : Path) (text : String) (d : Disk) :
    (∃ d', d.Stored (some p) text d' ∧ Passes (writeFile p text) d () "" d') ∨
      ¬ d.Opens p ∧ Fails (writeFile p text) d d := by
  obtain ⟨d', hwrite, hstored⟩ | ⟨fault, hwrite, hopens⟩ := d.write_cases p text
  · refine .inl ⟨d', hstored, passes_get_bind fun c hc => ?_⟩
    rw [hc, hwrite]
    exact fun c' _ => ⟨{ c' with disk := d' }, rfl, String.append_empty.symm, rfl⟩
  · refine .inr ⟨hopens, fails_get_bind fun c hc => ?_⟩
    rw [hc, hwrite]
    exact (fails_throw (.disk fault)).bind

theorem writePieces_cases (p : Path) (pieces : List String) (d : Disk) :
    (∃ d', d.Stored (some p) (w.kept pieces) d' ∧
        ((∀ piece ∈ pieces, w.Holds piece) ∧ Passes (writePieces w p pieces) d () "" d' ∨
          (¬ ∀ piece ∈ pieces, w.Holds piece) ∧ Fails (writePieces w p pieces) d d')) ∨
      ¬ d.Opens p ∧ Fails (writePieces w p pieces) d d := by
  obtain ⟨d', hstored, hwritten⟩ | ⟨hopens, hfails⟩ := writeFile_cases p (w.kept pieces) d
  case inr => exact .inr ⟨hopens, hfails.bind⟩
  refine .inl ⟨d', hstored, ?_⟩
  have hnone : pieces.findSome? w.encodingFault? = none ↔ ∀ piece ∈ pieces, w.Holds piece := by
    simp only [List.findSome?_eq_none_iff, Surroundings.encodingFault?_eq_none_iff]
  rw [← hnone, writePieces]
  cases hfault : pieces.findSome? w.encodingFault? with
  | none => exact .inl ⟨rfl, hwritten.silent_bind (passes_pure ())⟩
  | some fault => exact .inr ⟨nofun, hwritten.bind_fails (fails_throw fault)⟩

/-! ## The log -/

/-- The lines for milestones of which the first one comes behind so many others. -/
def logLines (times : Nat → Event.Timestamp) (count : Nat) : List Milestone → List String
  | [] => []
  | m :: rest => (Event.ofMilestone (times count) m).line :: logLines times (count + 1) rest

theorem exists_of_mem_logLines {line : String} {count : Nat} {milestones : List Milestone}
    (h : line ∈ logLines times count milestones) :
    ∃ now, ∃ m ∈ milestones, line = (Event.ofMilestone now m).line := by
  induction milestones generalizing count with
  | nil => cases h
  | cons m milestones ih =>
    rcases List.mem_cons.mp h with rfl | h
    · exact ⟨times count, m, List.mem_cons_self, rfl⟩
    · obtain ⟨now, m', hm', rfl⟩ := ih h
      exact ⟨now, m', List.mem_cons_of_mem _ hm', rfl⟩

theorem eventLine_of_holds (htimes : ∀ n, w.clock n = .ok (times n)) {count : Nat} {m : Milestone}
    (h : w.Holds (Event.ofMilestone (times count) m).line) :
    w.eventLine count m = .ok (Event.ofMilestone (times count) m).line := by
  have hnone := Surroundings.encodingFault?_eq_none_iff.mpr h
  simp only [Surroundings.eventLine, htimes, Except.mapError, bind, Except.bind, hnone]
  rfl

theorem eventLine_of_not_holds (htimes : ∀ n, w.clock n = .ok (times n)) {count : Nat}
    {m : Milestone} (h : ¬ w.Holds (Event.ofMilestone (times count) m).line) :
    ∃ fault, w.eventLine count m = .error fault := by
  obtain ⟨fault, hfault⟩ := Surroundings.encodingFault?_of_not_holds h
  refine ⟨fault, ?_⟩
  simp only [Surroundings.eventLine, htimes, Except.mapError, bind, Except.bind, hfault]
  rfl

theorem passes_announce (m : Milestone) : Passes (announce m) d () "" d := by
  cases m with
  | emptyLanguage A => exact passes_warn _
  | start | phase | done => exact passes_pure ()

theorem passes_forM_announce (milestones : List Milestone) :
    Passes (milestones.forM announce) d () "" d := by
  induction milestones with
  | nil => exact passes_pure ()
  | cons m milestones ih => exact (passes_announce m).silent_bind ih

/-- Of the lines for the milestones, those up to the first one that the log cannot hold come behind
what it held before. -/
theorem record_cases (htimes : ∀ n, w.clock n = .ok (times n)) {p : Path}
    (milestones : List Milestone) (count : Nat) (before : String) {begun : Disk}
    (hbegun : d.Stored (some p) before begun) :
    ∃ d', d.Stored (some p) (before ++ w.kept (logLines times count milestones)) d' ∧
      ((∀ line ∈ logLines times count milestones, w.Holds line) ∧
          Passes (record w p count before milestones) begun () "" d' ∨
        (¬ ∀ line ∈ logLines times count milestones, w.Holds line) ∧
          Fails (record w p count before milestones) begun d') := by
  induction milestones generalizing count before begun with
  | nil =>
    refine ⟨begun, ?_, .inl ⟨nofun, passes_pure ()⟩⟩
    rwa [logLines, Surroundings.kept_nil, String.append_empty]
  | cons m milestones ih =>
    have hannounced := passes_announce (d := begun) m
    by_cases hline : w.Holds (Event.ofMilestone (times count) m).line
    case neg =>
      obtain ⟨fault, hfault⟩ := eventLine_of_not_holds htimes hline
      refine ⟨begun, ?_, .inr ⟨fun h => hline (List.forall_mem_cons.mp h).1, ?_⟩⟩
      · rwa [logLines, Surroundings.kept_cons_of_not_holds hline, String.append_empty]
      · rw [record, hfault]
        exact hannounced.bind_fails (fails_throw fault).bind
    have hopens : begun.Opens p :=
      (Disk.opens_congr hbegun.directories_eq).mpr (hbegun.opens p rfl)
    obtain ⟨longer, hstored, hwritten⟩ | ⟨hnot, -⟩ :=
      writeFile_cases p (before ++ (Event.ofMilestone (times count) m).line) begun
    case inr => exact absurd hopens hnot
    obtain ⟨d', hstored', hrest⟩ := ih (count + 1) _ (hbegun.trans hstored)
    rw [record, eventLine_of_holds htimes hline, logLines, Surroundings.kept_cons_of_holds hline,
      ← String.append_assoc, List.forall_mem_cons, and_iff_right hline]
    refine ⟨d', hstored',
      hrest.imp (And.imp_right fun hpasses => ?_) (And.imp_right fun hfails => ?_)⟩
    · exact hannounced.silent_bind ((passes_pure _).silent_bind (hwritten.silent_bind hpasses))
    · exact hannounced.bind_fails ((passes_pure _).bind_fails (hwritten.bind_fails hfails))

/-- If there is a file, it can hold all of the texts. -/
def Takes (w : Surroundings) (p : Option Path) (texts : List String) : Prop :=
  ∀ _ ∈ p, ∀ text ∈ texts, w.Holds text

theorem follow_cases (htimes : ∀ n, w.clock n = .ok (times n)) (milestones : List Milestone)
    (p : Option Path) (d : Disk) :
    (∃ d', d.Stored p (w.kept (logLines times 0 milestones)) d' ∧
        (Takes w p (logLines times 0 milestones) ∧ Passes (follow w p milestones) d () "" d' ∨
          ¬ Takes w p (logLines times 0 milestones) ∧ Fails (follow w p milestones) d d')) ∨
      (¬ ∀ file ∈ p, d.Opens file) ∧ Fails (follow w p milestones) d d := by
  cases p with
  | none => exact .inl ⟨d, .none _ _, .inl ⟨nofun, passes_forM_announce _⟩⟩
  | some p =>
    obtain ⟨begun, hbegun, hwritten⟩ | ⟨hopens, hfails⟩ := writeFile_cases p "" d
    case inr => exact .inr ⟨fun h => hopens (h p rfl), hfails.bind⟩
    obtain ⟨d', hstored, hrest⟩ := record_cases htimes milestones 0 "" hbegun
    rw [String.empty_append] at hstored
    refine .inl ⟨d', hstored, hrest.imp (fun h => ?_) (fun h => ?_)⟩
    · exact ⟨fun _ _ => h.1, hwritten.silent_bind h.2⟩
    · exact ⟨fun htakes => h.1 (htakes p rfl), hwritten.bind_fails h.2⟩

/-! ## The result -/

theorem conclude_cases (result : Except Failure Grammar) (d : Disk) :
    (∃ r, result = .ok r ∧ Passes (conclude result) d r "" d) ∨
      ∃ failure, result = .error failure ∧ Fails (conclude result) d d := by
  cases result with
  | ok r => exact .inl ⟨r, rfl, passes_pure r⟩
  | error failure =>
    refine .inr ⟨failure, rfl, ?_⟩
    rw [conclude]
    split
    · exact fails_refuse _
    · exact fails_throw _

/-- What is printed about the result. -/
def resultText (r : Grammar) (p : Option Path) : String :=
  (s!"output: {sizeText r}" ++ "\n") ++ r.write ++ p.elim "" fun p => s!"wrote {p.text}" ++ "\n"

theorem join_pieces (r : Grammar) : String.join r.pieces = r.write :=
  Json.join_documentPieces r.toLiteral

theorem publish_cases (r : Grammar) (p : Option Path) (d : Disk) :
    (∃ d', d.Stored p (w.kept r.pieces) d' ∧
        (Takes w p r.pieces ∧ Passes (publish w r p) d () (resultText r p) d' ∨
          ¬ Takes w p r.pieces ∧ Fails (publish w r p) d d')) ∨
      (¬ ∀ file ∈ p, d.Opens file) ∧ Fails (publish w r p) d d := by
  have hsize := passes_printLine (d := d) s!"output: {sizeText r}"
  have hprinted := passes_print (d := d) r.write
  cases p with
  | none =>
    refine .inl ⟨d, .none _ _, .inl ⟨nofun, ?_⟩⟩
    rw [resultText, Option.elim_none, String.append_empty]
    exact hsize.bind (hprinted.bind_silent (passes_pure ()))
  | some p =>
    obtain ⟨d', hstored, hrest⟩ | ⟨hopens, hfails⟩ := writePieces_cases (w := w) p r.pieces d
    · refine .inl ⟨d', hstored, hrest.imp (fun h => ?_) (fun h => ?_)⟩
      · refine ⟨fun _ _ => h.1, ?_⟩
        rw [resultText, String.append_assoc]
        exact hsize.bind (hprinted.bind (h.2.silent_bind (passes_printLine _)))
      · exact ⟨fun htakes => h.1 (htakes p rfl),
          hsize.bind_fails (hprinted.bind_fails h.2.bind)⟩
    · exact .inr ⟨fun h => hopens (h p rfl), hsize.bind_fails (hprinted.bind_fails hfails.bind)⟩

end Command

end Chomsky.CommandLine
