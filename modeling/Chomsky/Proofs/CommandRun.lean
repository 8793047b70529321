import Chomsky.Proofs.CommandParts
import Chomsky.Proofs.GivenOptions

/-!
# What a run of the command leaves behind

A run of the command `Finishes`, or it `Stops` at one of six points (`normalize_cases`). Only at the
last one has it come as far as the output, and this one is reached only with a stem that no file can
hold. The log of a normalization is written before its result is looked at, so it is complete
whatever comes after it. `run_files` says what follows for the files of whole runs, in terms of the
options on the command line.
-/

namespace Chomsky.CommandLine

namespace Command

variable {w : Surroundings} {times : Nat → Event.Timestamp} {s : Settings} {g r : Grammar}
  {d d' : Disk}

/-! ## The ways of a run -/

/-- The lines of all that a normalization reports. -/
def reportLines (times : Nat → Event.Timestamp) (s : Settings) (g : Grammar) : List String :=
  logLines times 0 (g.normalize s.config).milestones

/-- From the disk `d`, the command does all that there is to do: it reads `g`, normalizes it to `r`
and leaves the disk `d'`. -/
structure Finishes (w : Surroundings) (times : Nat → Event.Timestamp) (s : Settings) (d : Disk)
    (g r : Grammar) (d' : Disk) : Prop where
  source_eq : sourceGrammar? d s.input = some g
  result_eq : (g.normalize s.config).result = .ok r
  log_taken : Takes w s.log (reportLines times s g)
  output_taken : Takes w s.output r.pieces
  stored : ∃ logged, d.Stored s.log (w.kept (reportLines times s g)) logged ∧
    logged.Stored s.output (w.kept r.pieces) d'

/-- From the disk `d`, the command stops on its way and leaves the last disk. -/
inductive Stops (w : Surroundings) (times : Nat → Event.Timestamp) (s : Settings) (d : Disk) :
    Disk → Prop where
  /-- There is no grammar to normalize. -/
  | unread (hsource : sourceGrammar? d s.input = none) : Stops w times s d d
  /-- The log cannot be begun. -/
  | unlogged (hlog : ¬ ∀ log ∈ s.log, d.Opens log) : Stops w times s d d
  /-- The log cannot hold a line. -/
  | unrecorded {g : Grammar} {logged : Disk} (hsource : sourceGrammar? d s.input = some g)
      (hlog : d.Stored s.log (w.kept (reportLines times s g)) logged)
      (htaken : ¬ Takes w s.log (reportLines times s g)) : Stops w times s d logged
  /-- The normalization fails. -/
  | failed {g : Grammar} {failure : Failure} {logged : Disk}
      (hsource : sourceGrammar? d s.input = some g)
      (hlog : d.Stored s.log (w.kept (reportLines times s g)) logged)
      (hresult : (g.normalize s.config).result = .error failure) : Stops w times s d logged
  /-- The output cannot be opened. -/
  | unwritten {g : Grammar} {logged : Disk} (hsource : sourceGrammar? d s.input = some g)
      (hlog : d.Stored s.log (w.kept (reportLines times s g)) logged)
      (houtput : ¬ ∀ out ∈ s.output, d.Opens out) : Stops w times s d logged
  /-- The output cannot hold a piece of the result. -/
  | broken {g r : Grammar} {logged d' : Disk} (hsource : sourceGrammar? d s.input = some g)
      (hlog : d.Stored s.log (w.kept (reportLines times s g)) logged)
      (hresult : (g.normalize s.config).result = .ok r)
      (houtput : logged.Stored s.output (w.kept r.pieces) d')
      (htaken : ¬ Takes w s.output r.pieces) : Stops w times s d d'

/-- What is printed by a run that finishes. -/
def transcript (s : Settings) (g r : Grammar) : String :=
  (sourceLine s.input ++ "\n") ++ ((s!"input: {sizeText g}" ++ "\n") ++ resultText r s.output)

theorem normalize_cases (htimes : ∀ n, w.clock n = .ok (times n)) (s : Settings) (d : Disk) :
    (∃ g r d', Finishes w times s d g r d' ∧
        Passes (normalize w s) d () (transcript s g r) d') ∨
      ∃ d', Stops w times s d d' ∧ Fails (normalize w s) d d' := by
  obtain ⟨g, hsource, hread⟩ | ⟨hsource, hfails⟩ := inputGrammar_cases s.input d
  case inr => exact .inr ⟨d, .unread hsource, hfails.bind⟩
  have hsize := passes_printLine (d := d) s!"input: {sizeText g}"
  obtain ⟨logged, hlog, hrecorded⟩ | ⟨hlog, hfails⟩ :=
    follow_cases htimes (g.normalize s.config).milestones s.log d
  case inr => exact .inr ⟨d, .unlogged hlog, hread.bind_fails (hsize.bind_fails hfails.bind)⟩
  obtain ⟨hlines, hfollowed⟩ | ⟨hlines, hfails⟩ := hrecorded
  case inr =>
    exact .inr ⟨logged, .unrecorded hsource hlog hlines,
      hread.bind_fails (hsize.bind_fails hfails.bind)⟩
  obtain ⟨r, hresult, hconcluded⟩ | ⟨failure, hresult, hfails⟩ :=
    conclude_cases (g.normalize s.config).result logged
  case inr =>
    exact .inr ⟨logged, .failed hsource hlog hresult,
      hread.bind_fails (hsize.bind_fails (hfollowed.bind_fails hfails.bind))⟩
  obtain ⟨d', houtput, hwritten⟩ | ⟨houtput, hfails⟩ := publish_cases (w := w) r s.output logged
  case inr =>
    simp only [Disk.opens_congr hlog.directories_eq] at houtput
    exact .inr ⟨logged, .unwritten hsource hlog houtput,
      hread.bind_fails (hsize.bind_fails (hfollowed.bind_fails (hconcluded.bind_fails hfails)))⟩
  obtain ⟨hpieces, hpublished⟩ | ⟨hpieces, hfails⟩ := hwritten
  case inr =>
    exact .inr ⟨d', .broken hsource hlog hresult houtput hpieces,
      hread.bind_fails (hsize.bind_fails (hfollowed.bind_fails (hconcluded.bind_fails hfails)))⟩
  exact .inl ⟨g, r, d', ⟨hsource, hresult, hlines, hpieces, logged, hlog, houtput⟩,
    hread.bind (hsize.bind (hfollowed.silent_bind (hconcluded.silent_bind hpublished)))⟩

theorem takes_pieces_iff {p : Option Path} : Takes w p r.pieces ↔ ∀ _ ∈ p, w.Holds r.write := by
  rw [← join_pieces]
  exact forall₂_congr fun _ _ => Surroundings.holds_join.symm

/-- What comes to be in the output does not concern the log. -/
theorem logged_text?_eq {logged : Disk} {text text' : String} (hlog : d.Stored s.log text logged)
    (houtput : logged.Stored s.output text' d')
    (hapart : ∀ out ∈ s.output, ∀ log ∈ s.log, d.Apart out log) :
    ∀ log ∈ s.log, d'.text? log = some text := by
  intro log hmem
  rw [houtput.text?_of_apart log, hlog.text?_eq log hmem]
  exact fun out hout => (Disk.apart_congr hlog.directories_eq).mpr (hapart out hout log hmem)

/-- The output is as it was, unless a piece of the result has been met that it cannot hold. No other
file but the log is changed. -/
theorem Stops.output_cases (h : Stops w times s d d')
    (hapart : ∀ out ∈ s.output, ∀ log ∈ s.log, d.Apart out log) :
    ∀ out ∈ s.output, d'.text? out = d.text? out ∨
      ∃ g r, sourceGrammar? d s.input = some g ∧ (g.normalize s.config).result = .ok r ∧
        ¬ w.Holds r.write ∧ d'.text? out = some (w.kept r.pieces) := by
  intro out hout
  have hlogs : ∀ log ∈ s.log, d.Apart log out := fun log hlog => (hapart out hout log hlog).symm
  cases h with
  | unread => exact .inl rfl
  | unlogged => exact .inl rfl
  | unrecorded _ hlog => exact .inl (hlog.text?_of_apart out hlogs)
  | failed _ hlog => exact .inl (hlog.text?_of_apart out hlogs)
  | unwritten _ hlog => exact .inl (hlog.text?_of_apart out hlogs)
  | @broken g r _ _ hsource hlog hresult houtput htaken =>
    refine .inr ⟨g, r, hsource, hresult, fun hholds => ?_, houtput.text?_eq out hout⟩
    exact htaken (takes_pieces_iff.mpr fun _ _ => hholds)

/-- If the normalization is reached, everything that it reports is in the log, as far as the log can
hold it. -/
theorem Stops.log_eq (h : Stops w times s d d') (hsource : sourceGrammar? d s.input = some g)
    (hopens : ∀ log ∈ s.log, d.Opens log)
    (hapart : ∀ out ∈ s.output, ∀ log ∈ s.log, d.Apart out log) :
    ∀ log ∈ s.log, d'.text? log = some (w.kept (reportLines times s g)) := by
  cases h with
  | unread hnone => exact absurd (hnone.symm.trans hsource) nofun
  | unlogged hlog => exact absurd hopens hlog
  | unrecorded hsource' hlog | failed hsource' hlog | unwritten hsource' hlog =>
    obtain rfl := Option.some.inj (hsource'.symm.trans hsource)
    exact hlog.text?_eq
  | broken hsource' hlog _ houtput =>
    obtain rfl := Option.some.inj (hsource'.symm.trans hsource)
    exact logged_text?_eq hlog houtput hapart

/-- A run stops only for want of a grammar, of a result, of a place for its files, or of files that
can hold what it writes. -/
theorem Stops.not_possible (h : Stops w times s d d') :
    ¬ ∃ g r, sourceGrammar? d s.input = some g ∧ (g.normalize s.config).result = .ok r ∧
      (∀ log ∈ s.log, d.Opens log ∧ ∀ line ∈ reportLines times s g, w.Holds line) ∧
      ∀ out ∈ s.output, d.Opens out ∧ w.Holds r.write := by
  rintro ⟨g, r, hsource, hresult, hlogs, houts⟩
  cases h with
  | unread hnone => exact absurd (hnone.symm.trans hsource) nofun
  | unlogged hlog => exact hlog fun log hmem => (hlogs log hmem).1
  | unrecorded hsource' _ htaken =>
    obtain rfl := Option.some.inj (hsource'.symm.trans hsource)
    exact htaken fun log hmem => (hlogs log hmem).2
  | failed hsource' _ hfailure =>
    obtain rfl := Option.some.inj (hsource'.symm.trans hsource)
    exact absurd (hfailure.symm.trans hresult) nofun
  | unwritten _ _ houtput => exact houtput fun out hmem => (houts out hmem).1
  | broken hsource' _ hresult' _ htaken =>
    obtain rfl := Option.some.inj (hsource'.symm.trans hsource)
    obtain rfl := Except.ok.inj (hresult'.symm.trans hresult)
    exact htaken (takes_pieces_iff.mpr fun out hmem => (houts out hmem).2)

/-- A run that finishes has everything that it needs. -/
theorem Finishes.possible (h : Finishes w times s d g r d') :
    (∀ log ∈ s.log, d.Opens log ∧ ∀ line ∈ reportLines times s g, w.Holds line) ∧
      ∀ out ∈ s.output, d.Opens out ∧ w.Holds r.write := by
  obtain ⟨logged, hlog, houtput⟩ := h.stored
  refine ⟨fun log hmem => ⟨hlog.opens log hmem, h.log_taken log hmem⟩, fun out hmem => ⟨?_, ?_⟩⟩
  · exact (Disk.opens_congr hlog.directories_eq).mp (houtput.opens out hmem)
  · exact takes_pieces_iff.mp h.output_taken out hmem

theorem Finishes.output_eq (h : Finishes w times s d g r d') :
    ∀ out ∈ s.output, d'.text? out = some r.write := by
  intro out hout
  obtain ⟨logged, -, houtput⟩ := h.stored
  rw [houtput.text?_eq out hout, Surroundings.kept_of_holds (h.output_taken out hout), join_pieces]

theorem Finishes.log_eq (h : Finishes w times s d g r d')
    (hapart : ∀ out ∈ s.output, ∀ log ∈ s.log, d.Apart out log) :
    ∀ log ∈ s.log, d'.text? log = some (String.join (reportLines times s g)) := by
  intro log hlog
  obtain ⟨logged, hlogged, houtput⟩ := h.stored
  rw [logged_text?_eq hlogged houtput hapart log hlog,
    Surroundings.kept_of_holds (h.log_taken log hlog)]

/-! ## What the files can hold -/

theorem holds_reportLines (hnames : ∀ name ∈ g.names, w.Holds name)
    (hstem : w.Holds s.config.stem) : ∀ line ∈ reportLines times s g, w.Holds line := by
  intro line hline
  obtain ⟨now, m, hm, rfl⟩ := exists_of_mem_logLines hline
  refine Surroundings.holds_of_drawn (fun name hname => ?_) (drawn_line now m)
  exact Surroundings.holds_of_nameFrom hnames hstem
    (Grammar.namesFrom_milestones g s.config hm name hname)

theorem holds_write (hnames : ∀ name ∈ g.names, w.Holds name) (hstem : w.Holds s.config.stem)
    (hresult : (g.normalize s.config).result = .ok r) : w.Holds r.write := by
  have hvalid : r.Valid := (Grammar.normalizesTo_of_ok hresult).valid
  refine Surroundings.holds_of_drawn (fun name hname => ?_) hvalid.drawn_write
  exact Surroundings.holds_of_nameFrom hnames hstem (Grammar.namesFrom_result hresult name hname)

end Command

/-! ## Whole runs -/

open Command

variable {w : Surroundings} {times : Nat → Event.Timestamp} {args : List String} {s : Settings}
  {g : Grammar} {d d' : Disk} {text : String} {ending : Ending} {c : Console}

theorem run_of_passes (hargs : Request.ofArguments args = .ok (.normalize s))
    (h : Passes (normalize w s) d () text d') :
    ∃ c, run args w d = (.exit 0, c) ∧ c.out = text ∧ c.disk = d' := by
  obtain ⟨c, hexec, hout, hdisk⟩ := h { disk := d } rfl
  refine ⟨c, ?_, by rw [hout, String.empty_append], hdisk⟩
  rw [exec] at hexec
  rw [run, obey, hargs]
  simp only [hexec]

theorem run_of_fails (hargs : Request.ofArguments args = .ok (.normalize s))
    (h : Fails (normalize w s) d d') :
    ∃ ending c, run args w d = (ending, c) ∧ ending ≠ .exit 0 ∧ c.disk = d' := by
  obtain ⟨ending, c, hexec, hend⟩ := h { disk := d } rfl
  refine ⟨ending, c, ?_, hend⟩
  rw [exec] at hexec
  rw [run, obey, hargs]
  simp only [hexec]

/-- What a run with these settings leaves behind, when it began on the disk `d`. -/
structure Leaves (w : Surroundings) (times : Nat → Event.Timestamp) (s : Settings) (d : Disk)
    (ending : Ending) (c : Console) : Prop where
  /-- The run succeeds if and only if there is a grammar, it can be normalized, there is a place for
  every file, and the files can hold what is to be written to them. -/
  exit_iff : ending = .exit 0 ↔
    ∃ g r, sourceGrammar? d s.input = some g ∧ (g.normalize s.config).result = .ok r ∧
      (∀ log ∈ s.log, d.Opens log ∧ ∀ line ∈ reportLines times s g, w.Holds line) ∧
      ∀ out ∈ s.output, d.Opens out ∧ w.Holds r.write
  /-- Then the output holds the result, which is also printed, and the log the lines of all that the
  normalization reports. -/
  finished : ending = .exit 0 →
    ∃ g r, sourceGrammar? d s.input = some g ∧ (g.normalize s.config).result = .ok r ∧
      c.out = transcript s g r ∧ (∀ out ∈ s.output, c.disk.text? out = some r.write) ∧
      ∀ log ∈ s.log, c.disk.text? log = some (String.join (reportLines times s g))
  /-- Otherwise the output stays as it was, or stays away. Only with a stem that no file can hold
  may it be left with the first pieces of the result. -/
  output_kept : ending ≠ .exit 0 → ∀ out ∈ s.output,
    c.disk.text? out = d.text? out ∨ ¬ w.Holds s.config.stem ∧
      ∃ g r, sourceGrammar? d s.input = some g ∧ (g.normalize s.config).result = .ok r ∧
        ¬ w.Holds r.write ∧ c.disk.text? out = some (w.kept r.pieces)
  /-- If a normalization is reached, the log holds the lines of all that it reports before it fails,
  up to the first line that the log cannot hold. -/
  log_kept : ending ≠ .exit 0 →
    ∀ g, sourceGrammar? d s.input = some g → (∀ log ∈ s.log, d.Opens log) →
      ∀ log ∈ s.log, c.disk.text? log = some (w.kept (reportLines times s g))
  /-- If a file can hold the stem, the files can hold everything. -/
  holds : w.Holds s.config.stem → ∀ g, sourceGrammar? d s.input = some g →
    (∀ line ∈ reportLines times s g, w.Holds line) ∧
      ∀ r, (g.normalize s.config).result = .ok r → w.Holds r.write

/-- With a stem that a file can hold, no run that fails changes the output. -/
theorem Leaves.output_unchanged (h : Leaves w times s d ending c) (hstem : w.Holds s.config.stem)
    (hend : ending ≠ .exit 0) : ∀ out ∈ s.output, c.disk.text? out = d.text? out :=
  fun out hout => (h.output_kept hend out hout).resolve_right fun hbroken => hbroken.1 hstem

/-- With such a stem, the log of a normalization lacks nothing, however the run ends. -/
theorem Leaves.log_complete (h : Leaves w times s d ending c) (hstem : w.Holds s.config.stem)
    (hsource : sourceGrammar? d s.input = some g) (hopens : ∀ log ∈ s.log, d.Opens log) :
    ∀ log ∈ s.log, c.disk.text? log = some (String.join (reportLines times s g)) := by
  intro log hlog
  by_cases hend : ending = .exit 0
  · obtain ⟨g', r, hsource', -, -, -, hlogs⟩ := h.finished hend
    obtain rfl := Option.some.inj (hsource'.symm.trans hsource)
    exact hlogs log hlog
  · rw [h.log_kept hend g hsource hopens log hlog,
      Surroundings.kept_of_holds (h.holds hstem g hsource).1]

/-- A run takes its settings from the options on the command line, and what it leaves behind follows
from them. The paths of the output and the log may not lead to the same place; where the grammar
comes from does not matter. -/
theorem run_files (htimes : ∀ n, w.clock n = .ok (times n))
    (hargs : Request.ofArguments args = .ok (.normalize s))
    (hnames : ∀ g, sourceGrammar? d s.input = some g → ∀ name ∈ g.names, w.Holds name)
    (hapart : ∀ out ∈ s.output, ∀ log ∈ s.log, d.Apart out log) :
    ∃ words ending c, Word.ofStrings args = .ok words ∧ s.SetBy words ∧
      run args w d = (ending, c) ∧ Leaves w times s d ending c := by
  obtain ⟨words, hwords, hset⟩ := Settings.setBy_of_ofArguments hargs
  have hholds (hstem : w.Holds s.config.stem) (g : Grammar)
      (hsource : sourceGrammar? d s.input = some g) :
      (∀ line ∈ reportLines times s g, w.Holds line) ∧
        ∀ r, (g.normalize s.config).result = .ok r → w.Holds r.write :=
    ⟨holds_reportLines (hnames g hsource) hstem,
      fun r hresult => holds_write (hnames g hsource) hstem hresult⟩
  obtain ⟨g, r, d', hfinishes, hpasses⟩ | ⟨d', hstops, hfails⟩ := normalize_cases htimes s d
  · obtain ⟨c, hrun, hout, rfl⟩ := run_of_passes hargs hpasses
    obtain ⟨hlogs, houts⟩ := hfinishes.possible
    refine ⟨words, .exit 0, c, hwords, hset, hrun, ?_⟩
    exact {
      exit_iff := ⟨fun _ => ⟨g, r, hfinishes.source_eq, hfinishes.result_eq, hlogs, houts⟩,
        fun _ => rfl⟩
      finished := fun _ => ⟨g, r, hfinishes.source_eq, hfinishes.result_eq, hout,
        hfinishes.output_eq, hfinishes.log_eq hapart⟩
      output_kept := fun hne => absurd rfl hne
      log_kept := fun hne => absurd rfl hne
      holds := hholds }
  · obtain ⟨ending, c, hrun, hending, rfl⟩ := run_of_fails hargs hfails
    refine ⟨words, ending, c, hwords, hset, hrun, ?_⟩
    exact {
      exit_iff := ⟨fun hexit => absurd hexit hending,
        fun hpossible => absurd hpossible hstops.not_possible⟩
      finished := fun hexit => absurd hexit hending
      output_kept := fun _ out hout => (hstops.output_cases hapart out hout).imp_right
        fun ⟨g, r, hsource, hresult, hnot, htext⟩ =>
          ⟨fun hstem => hnot ((hholds hstem g hsource).2 r hresult),
            g, r, hsource, hresult, hnot, htext⟩
      log_kept := fun _ g hsource hopens => hstops.log_eq hsource hopens hapart
      holds := hholds }

/-- One rule with two terminals, for which binarization needs a name. -/
def pairOnly : Grammar where
  start := ⟨"S"⟩
  rules := [⟨⟨"S"⟩, [.terminal ⟨"a"⟩, .terminal ⟨"a"⟩]⟩]
  nonterminals := [⟨"S"⟩]
  terminals := [⟨"a"⟩]

/-- A working directory with the document of that grammar. -/
def pairDisk : Disk := .ofFiles [(⟨"", ["g"]⟩, pairOnly.write)]

theorem path_of_name (name : String) (h : name ∈ ["g", "out", "log"]) :
    Path.ofString name = ⟨"", [name]⟩ := by
  rw [Path.ofString_eq]
  revert name
  decide +kernel

theorem locate_pairDisk (name : String) (h : name ∈ ["g", "out", "log"]) :
    pairDisk.locate ⟨"", [name]⟩ = .ok ⟨"", [name]⟩ := by
  simp only [List.mem_cons, List.not_mem_nil, or_false] at h
  obtain rfl | rfl | rfl := h <;>
    exact Disk.locate_eq_ok_iff.mpr ⟨by simp, by decide, rfl, by decide⟩

theorem text?_pairDisk {name : String} (h : name ∈ ["out", "log"]) :
    pairDisk.text? ⟨"", [name]⟩ = none := by
  rw [Disk.text?_of_locate (locate_pairDisk name (List.mem_cons_of_mem _ h))]
  obtain rfl | rfl := List.mem_pair.mp h <;> rfl

/-- An empty stem stops the worked example when its log has been begun. -/
theorem run_files_emptyPrefix :
    ∃ ending c,
      run ["--output", "out", "--log", "log", "--fresh-prefix", ""]
        { clock := fun n => .ok ⟨n⟩ } pairDisk = (ending, c) ∧ ending ≠ .exit 0 ∧
        c.disk.text? (.ofString "out") = none ∧ c.disk.text? (.ofString "log") = some "" := by
  have hargs : Request.ofArguments ["--output", "out", "--log", "log", "--fresh-prefix", ""] =
      .ok (.normalize
        { output := some (.ofString "out"), log := some (.ofString "log"),
          config := { stem := "" } }) := rfl
  rw [path_of_name "out" (by decide), path_of_name "log" (by decide)] at hargs ⊢
  have hvalid : Grammar.workedExample.Valid := Grammar.defect?_eq_none_iff.mp (by cbv)
  have hstem : Surroundings.Holds { clock := fun n => .ok ⟨n⟩ } "" := List.forall_mem_nil _
  obtain ⟨words, ending, c, -, -, hrun, hleaves⟩ :=
    run_files (w := { clock := fun n => .ok ⟨n⟩ }) (d := pairDisk) (fun _ => rfl) hargs
      (fun _ _ _ _ _ _ => rfl) (by
        rintro _ ⟨rfl⟩ _ ⟨rfl⟩
        exact Disk.apart_of_plain (by decide) (by decide) (.inr (by decide)))
  have hne : ending ≠ .exit 0 := by
    intro h
    obtain ⟨g, r, ⟨rfl⟩, hr, -⟩ := hleaves.exit_iff.mp h
    cases (Grammar.normalize_of_emptyStem hvalid rfl).symm.trans hr
  have hopens : ∀ log ∈ some (Path.mk "" ["log"]), pairDisk.Opens log := by
    rintro _ ⟨rfl⟩
    exact ⟨_, locate_pairDisk "log" (by decide)⟩
  refine ⟨ending, c, hrun, hne, ?_, ?_⟩
  · rw [hleaves.output_unchanged hstem hne _ rfl, text?_pairDisk (by decide)]
  · rw [hleaves.log_complete hstem (g := .workedExample) rfl hopens _ rfl, reportLines,
      Grammar.milestones_of_emptyStem hvalid rfl]
    rfl

/-- The characters that stand for lone surrogates are those at the end of the last plane. -/
def loneSurrogates : Surroundings where
  clock := fun n => .ok ⟨n⟩
  surrogate? c := if 0x10d800 ≤ c.toNat then some (c.toNat - 0x100000) else none
  le_of_surrogate c h := by
    by_contra hc
    rw [if_neg (by omega)] at h
    cases h

/-- The text of one lone surrogate. -/
def strayStem : String := String.singleton (Char.ofNat 0x10dcff)

/-- What normalization makes of the one rule. -/
def strayPair : Grammar where
  start := ⟨"S"⟩
  rules :=
    [⟨⟨strayStem ++ "1"⟩, [.terminal ⟨"a"⟩]⟩,
     ⟨⟨"S"⟩, [.nonterminal ⟨strayStem ++ "1"⟩, .nonterminal ⟨strayStem ++ "1"⟩]⟩]
  nonterminals := [⟨"S"⟩, ⟨strayStem ++ "1"⟩]
  terminals := [⟨"a"⟩]

theorem result_pairOnly : (pairOnly.normalize { stem := strayStem }).result = .ok strayPair := by
  cbv

theorem kept_strayPair : loneSurrogates.kept strayPair.pieces = "\x7b\n \"VN\": [\n  \"S\"" := by
  cbv

theorem findSome?_strayPair :
    strayPair.pieces.findSome? loneSurrogates.encodingFault? = some (.unencodable 5 [0xdcff]) := by
  cbv

theorem read_pairOnly :
    Grammar.read (String.ofList (Command.unifyLines pairOnly.write.toList)) = .ok pairOnly := by
  cbv

theorem text?_input : pairDisk.text? ⟨"", ["g"]⟩ = some pairOnly.write := by
  rw [Disk.text?_of_locate (locate_pairDisk "g" (by decide))]
  rfl

theorem sourceGrammar?_pairDisk : sourceGrammar? pairDisk (some ⟨"", ["g"]⟩) = some pairOnly := by
  rw [sourceGrammar?, text?_input, Option.bind_some, read_pairOnly]
  rfl

theorem not_takes_strayPair {p : Path} : ¬ Takes loneSurrogates (some p) strayPair.pieces := by
  intro htakes
  have hnone : strayPair.pieces.findSome? loneSurrogates.encodingFault? = none := by
    simp only [List.findSome?_eq_none_iff, Surroundings.encodingFault?_eq_none_iff]
    exact htakes p rfl
  cases findSome?_strayPair.symm.trans hnone

/-- The settings of a run that brings the one rule into normal form with that stem. -/
def straySettings : Settings where
  input := some ⟨"", ["g"]⟩
  output := some ⟨"", ["out"]⟩
  config := { stem := strayStem }

/-- Such a run comes as far as the output, but no further. -/
theorem text?_of_stops (h : Stops loneSurrogates times straySettings pairDisk d) :
    d.text? ⟨"", ["out"]⟩ = some "\x7b\n \"VN\": [\n  \"S\"" := by
  cases h with
  | unread hsource => cases hsource.symm.trans sourceGrammar?_pairDisk
  | unlogged hlog => exact absurd nofun hlog
  | unrecorded _ _ htaken => exact absurd nofun htaken
  | failed hsource _ hresult =>
    obtain rfl := Option.some.inj (hsource.symm.trans sourceGrammar?_pairDisk)
    cases hresult.symm.trans result_pairOnly
  | unwritten _ _ houtput =>
    refine absurd ?_ houtput
    rintro _ ⟨rfl⟩
    exact ⟨_, locate_pairDisk "out" (by decide)⟩
  | broken hsource _ hresult houtput =>
    obtain rfl := Option.some.inj (hsource.symm.trans sourceGrammar?_pairDisk)
    obtain rfl := Except.ok.inj (hresult.symm.trans result_pairOnly)
    rw [houtput.text?_eq _ rfl, kept_strayPair]

theorem not_finishes_stray {r : Grammar} :
    ¬ Finishes loneSurrogates times straySettings pairDisk g r d := by
  intro h
  obtain rfl := Option.some.inj (h.source_eq.symm.trans sourceGrammar?_pairDisk)
  obtain rfl := Except.ok.inj (h.result_eq.symm.trans result_pairOnly)
  exact not_takes_strayPair h.output_taken

/-- With a lone surrogate for a stem, a run that fails leaves a part of the result in a file that
was not there before. -/
theorem run_strayStem :
    ∃ ending c,
      run ["--input", "g", "--output", "out", "--fresh-prefix", strayStem] loneSurrogates pairDisk =
        (ending, c) ∧ ending ≠ .exit 0 ∧
        pairDisk.text? (.ofString "out") = none ∧
        c.disk.text? (.ofString "out") = some "\x7b\n \"VN\": [\n  \"S\"" := by
  have hargs : Request.ofArguments
      ["--input", "g", "--output", "out", "--fresh-prefix", strayStem] =
      .ok (.normalize
        { input := some (.ofString "g"), output := some (.ofString "out"),
          config := { stem := strayStem } }) := rfl
  rw [path_of_name "g" (by decide), path_of_name "out" (by decide)] at hargs
  rw [path_of_name "out" (by decide)]
  have htimes : ∀ n, loneSurrogates.clock n = .ok ⟨n⟩ := fun _ => rfl
  obtain ⟨g, r, d', hfinishes, -⟩ | ⟨d', hstops, hfails⟩ :=
    normalize_cases htimes straySettings pairDisk
  · exact absurd hfinishes not_finishes_stray
  · obtain ⟨ending, c, hrun, hending, rfl⟩ := run_of_fails hargs hfails
    exact ⟨ending, c, hrun, hending, text?_pairDisk (by decide), text?_of_stops hstops⟩

end Chomsky.CommandLine
