import Chomsky.CommandLine.Disk
import Mathlib.Data.String.Basic

/-!
# Files on a disk

Writing a file changes the text at one place and no directory. So every path leads to the same place
as before (`locate_congr`), and only paths that lead to the place of the file show the change
(`Stored.of_locate`). Whether two files are the same is a question of their places: a path with the
name `..` in it may lead to the place of a different path, and paths without it lead to different
places if they are different themselves (`apart_of_plain`).
-/

namespace Chomsky.CommandLine

namespace Path

open String in
/-- `l` is what was read before the present name, `m` what was read of it, and `r` is to come. -/
theorem splitOnAux_slash (l m r : List Char) (acc : List String) :
    splitOnAux (ofList (l ++ m ++ r)) "/" ⟨utf8Len l⟩ ⟨utf8Len l + utf8Len m⟩ 0 acc =
      acc.reverse ++ (List.splitOnPPrepend (· == '/') r m.reverse).map ofList := by
  induction r generalizing l m acc with
  | nil =>
    have hend := atEnd_of_valid (l ++ m) []
    rw [utf8Len_append] at hend
    rw [splitOnAux, if_pos (hend.mpr rfl), extract_of_valid l m []]
    simp
  | cons c r ih =>
    have hend := atEnd_of_valid (l ++ m) (c :: r)
    have hget := get_of_valid (l ++ m) (c :: r)
    have hnext := next_of_valid (l ++ m) c r
    rw [utf8Len_append] at hend hget hnext
    have hfirst : Pos.Raw.get "/" 0 = '/' := by decide +kernel
    rw [splitOnAux, if_neg (mt hend.mp (List.cons_ne_nil c r)), hget, hfirst, List.headD_cons,
      List.splitOnPPrepend_cons_eq_if]
    by_cases hc : (c == '/') = true
    · -- the slash is all of what is looked for, so the name ends here
      have hlast : Pos.Raw.next "/" 0 = ⟨1⟩ := by decide +kernel
      have hdone : Pos.Raw.atEnd "/" ⟨1⟩ = true := by decide +kernel
      have hsize : c.utf8Size = 1 := by
        rw [eq_of_beq hc]
        decide
      have hback : (⟨utf8Len l + utf8Len m + 1⟩ : Pos.Raw).unoffsetBy ⟨1⟩ =
          ⟨utf8Len l + utf8Len m⟩ := rfl
      have hrest := ih (l ++ m ++ [c]) [] (ofList m :: acc)
      rw [if_pos hc, if_pos hc, hnext, hlast, hsize]
      dsimp only
      rw [if_pos hdone, hback, extract_of_valid]
      simpa [Nat.add_assoc, -ofList_append, hsize] using hrest
    · have hstay : (⟨utf8Len l + utf8Len m⟩ : Pos.Raw).unoffsetBy 0 =
          ⟨utf8Len l + utf8Len m⟩ := rfl
      have hrest := ih l (m ++ [c]) acc
      rw [if_neg hc, if_neg hc, hstay, hnext]
      simpa [Nat.add_assoc, -ofList_append] using hrest

theorem splitOn_slash (s : String) :
    s.splitOn "/" = (s.toList.splitOnP (· == '/')).map String.ofList := by
  rw [String.splitOn, if_neg (by decide)]
  simpa using splitOnAux_slash [] [] s.toList []

/-- The names of a path are the texts between its slashes. -/
theorem ofString_eq (s : String) :
    ofString s = ⟨rootOf s, ((s.toList.splitOnP (· == '/')).map String.ofList).filter
      fun part => part ≠ "" && part ≠ "."⟩ := by
  rw [ofString, splitOn_slash]

theorem enter_of_ne {q : Path} {name : String} (h : name ≠ "..") :
    q.enter name = { q with parts := q.parts ++ [name] } := by
  rw [enter, if_pos (by simp [h])]

end Path

namespace Disk

variable {d d' d'' : Disk} {p q place : Path} {text text' : String}

/-- The text of the file at a path, if there is one. -/
def text? (d : Disk) (p : Path) : Option String := (d.read p).toOption

/-- Whether the path leads to a place where a file is or may be made. -/
def Opens (d : Disk) (p : Path) : Prop := ∃ place, d.locate p = .ok place

/-- There is no place to which both paths lead. -/
def Apart (d : Disk) (p q : Path) : Prop :=
  ∀ place, d.locate p = .ok place → d.locate q ≠ .ok place

theorem Apart.symm (h : d.Apart p q) : d.Apart q p :=
  fun place hq hp => h place hp hq

/-! ## Places -/

theorem locate_eq_ok_iff :
    d.locate p = .ok place ↔
      (p.parts.any (·.contains '\x00')) = false ∧ p.text.utf8ByteSize ≤ Path.textLimit ∧
        d.follow p p.origin p.parts = .ok place ∧ d.hasDirectory place = false := by
  unfold locate
  by_cases hnull : p.parts.any (·.contains '\x00') = true
  · rw [if_pos hnull, hnull]
    exact ⟨nofun, nofun⟩
  by_cases hlong : Path.textLimit < p.text.utf8ByteSize
  · rw [if_neg hnull, if_pos hlong]
    exact ⟨nofun, fun h => absurd h.2.1 (Nat.not_le_of_lt hlong)⟩
  rw [if_neg hnull, if_neg hlong, and_iff_right (eq_false_of_ne_true hnull),
    and_iff_right (Nat.le_of_not_lt hlong)]
  cases d.follow p p.origin p.parts with
  | error e => exact ⟨nofun, nofun⟩
  | ok q =>
    rw [Except.ok.injEq]
    change (if d.hasDirectory q = true then Except.error (Fault.isDirectory p) else Except.ok q) =
      Except.ok place ↔ _
    by_cases hdir : d.hasDirectory q = true
    · rw [if_pos hdir]
      refine ⟨nofun, ?_⟩
      rintro ⟨rfl, hno⟩
      exact absurd hdir (ne_true_of_eq_false hno)
    · rw [if_neg hdir, Except.ok.injEq]
      refine ⟨?_, And.left⟩
      rintro rfl
      exact ⟨rfl, eq_false_of_ne_true hdir⟩

theorem hasDirectory_congr (h : d'.directories = d.directories) (place : Path) :
    d'.hasDirectory place = d.hasDirectory place := by
  rw [hasDirectory, hasDirectory, h]

theorem follow_congr (h : d'.directories = d.directories) (names : List String) :
    d'.follow p q names = .ok place ↔ d.follow p q names = .ok place := by
  induction names generalizing q with
  | nil => exact Iff.rfl
  | cons name names ih =>
    simp only [follow, hasDirectory_congr h]
    split
    · split
      · exact Iff.rfl
      · exact ih
    · -- no way leads on; what the files have to do with it is the reason that is given
      constructor <;> intro hok <;> split at hok <;> cases hok

theorem locate_congr (h : d'.directories = d.directories) :
    d'.locate p = .ok place ↔ d.locate p = .ok place := by
  rw [locate_eq_ok_iff, locate_eq_ok_iff, follow_congr h, hasDirectory_congr h]

theorem opens_congr (h : d'.directories = d.directories) : d'.Opens p ↔ d.Opens p :=
  exists_congr fun _ => locate_congr h

theorem apart_congr (h : d'.directories = d.directories) : d'.Apart p q ↔ d.Apart p q := by
  simp only [Apart, ne_eq, locate_congr h]

theorem follow_plain {names : List String} (h : ".." ∉ names)
    (hfollow : d.follow p q names = .ok place) : place = { q with parts := q.parts ++ names } := by
  induction names generalizing q with
  | nil =>
    rw [List.append_nil]
    exact (Except.ok.inj hfollow).symm
  | cons name names ih =>
    rw [List.mem_cons, not_or] at h
    rw [follow] at hfollow
    split at hfollow
    · split at hfollow
      · cases hfollow
      · rw [Path.enter_of_ne (Ne.symm h.1)] at hfollow
        rw [ih h.2 hfollow, List.append_assoc, List.singleton_append]
    · split at hfollow <;> cases hfollow

theorem locate_plain (h : ".." ∉ p.parts) (hlocate : d.locate p = .ok place) :
    place = { p.origin with parts := p.parts } :=
  follow_plain h (locate_eq_ok_iff.mp hlocate).2.2.1

/-- Different paths lead to different places, as long as no name leads up again. -/
theorem apart_of_plain (hp : ".." ∉ p.parts) (hq : ".." ∉ q.parts)
    (hne : p.origin ≠ q.origin ∨ p.parts ≠ q.parts) : d.Apart p q := by
  intro place hplace hplace'
  have hsame := (locate_plain hp hplace).symm.trans (locate_plain hq hplace')
  obtain ⟨hroot, hparts⟩ := Path.mk.inj hsame
  rcases hne with horigin | hne
  · exact horigin (congrArg (fun root => Path.mk root []) hroot)
  · exact hne hparts

/-- With a name that leads up again, different paths may lead to one place. -/
example : ¬ (ofFiles [(⟨"", ["d", "x"]⟩, "")]).Apart ⟨"", ["d", "..", "out"]⟩ ⟨"", ["out"]⟩ := by
  intro hapart
  refine hapart ⟨"", ["out"]⟩ (locate_eq_ok_iff.mpr ?_) (locate_eq_ok_iff.mpr ?_)
  · exact ⟨by simp, by decide, rfl, by decide⟩
  · exact ⟨by simp, by decide, rfl, by decide⟩

/-! ## Texts -/

theorem text?_of_locate (h : d.locate p = .ok place) : d.text? p = d.files.lookup place := by
  rw [text?, read, h]
  cases hfile : d.files.lookup place <;> simp [bind, Except.bind, hfile] <;> rfl

theorem text?_of_not_opens (h : ¬ d.Opens p) : d.text? p = none := by
  cases hlocate : d.locate p with
  | ok place => exact absurd ⟨place, hlocate⟩ h
  | error fault =>
    rw [text?, read, hlocate]
    rfl

theorem lookup_filter_ne (files : List (Path × String)) :
    (files.filter (·.1 ≠ place)).lookup q = if q = place then none else files.lookup q := by
  induction files with
  | nil => simp
  | cons file files ih => grind

theorem lookup_append_filter_ne (files : List (Path × String)) :
    (files.filter (·.1 ≠ place) ++ [(place, text)]).lookup q =
      if q = place then some text else files.lookup q := by
  rw [List.lookup_append, lookup_filter_ne]
  grind

/-! ## Storing -/

/-- Of `d`, `d'` differs in the text of the file at the path, if a path is given: there it holds
`text`. -/
structure Stored (d : Disk) (p : Option Path) (text : String) (d' : Disk) : Prop where
  directories_eq : d'.directories = d.directories
  text?_eq : ∀ file ∈ p, d'.text? file = some text
  text?_of_apart : ∀ q, (∀ file ∈ p, d.Apart file q) → d'.text? q = d.text? q

theorem Stored.none (d : Disk) (text : String) : d.Stored none text d :=
  ⟨rfl, nofun, fun _ _ => rfl⟩

theorem Stored.opens {p : Option Path} (h : d.Stored p text d') : ∀ file ∈ p, d.Opens file := by
  intro file hfile
  by_contra hopens
  have hnone := text?_of_not_opens (mt (opens_congr h.directories_eq).mp hopens)
  exact absurd (hnone.symm.trans (h.text?_eq file hfile)) nofun

/-- The second text takes the place of the first. -/
theorem Stored.trans {p : Option Path} (h : d.Stored p text d') (h' : d'.Stored p text' d'') :
    d.Stored p text' d'' := by
  refine ⟨h'.directories_eq.trans h.directories_eq, h'.text?_eq, fun q hq => ?_⟩
  have hq' : ∀ file ∈ p, d'.Apart file q := fun file hfile =>
    (apart_congr h.directories_eq).mpr (hq file hfile)
  rw [h'.text?_of_apart q hq', h.text?_of_apart q hq]

/-- A change of the files at the place to which the path leads, and nowhere else. -/
theorem Stored.of_locate (hlocate : d.locate p = .ok place)
    (hdirectories : d'.directories = d.directories)
    (hfiles : d'.files = d.files.filter (·.1 ≠ place) ++ [(place, text)]) :
    d.Stored (some p) text d' := by
  refine ⟨hdirectories, fun file hfile => ?_, fun q hq => ?_⟩
  · obtain rfl := Option.mem_some.mp hfile
    rw [text?_of_locate ((locate_congr hdirectories).mpr hlocate), hfiles,
      lookup_append_filter_ne, if_pos rfl]
  · by_cases hopens : d.Opens q
    · obtain ⟨other, hother⟩ := hopens
      have hne : other ≠ place := by
        rintro rfl
        exact hq p (Option.mem_some.mpr rfl) other hlocate hother
      rw [text?_of_locate ((locate_congr hdirectories).mpr hother), hfiles,
        lookup_append_filter_ne, if_neg hne, text?_of_locate hother]
    · rw [text?_of_not_opens hopens, text?_of_not_opens (mt (opens_congr hdirectories).mp hopens)]

theorem write_cases (d : Disk) (p : Path) (text : String) :
    (∃ d', d.write p text = .ok d' ∧ d.Stored (some p) text d') ∨
      ∃ fault, d.write p text = .error fault ∧ ¬ d.Opens p := by
  cases hlocate : d.locate p with
  | ok place =>
    have hwrite : d.write p text =
        .ok { d with files := d.files.filter (·.1 ≠ place) ++ [(place, text)] } := by
      rw [write, hlocate]
      rfl
    exact .inl ⟨_, hwrite, .of_locate hlocate rfl rfl⟩
  | error fault =>
    refine .inr ⟨fault, by rw [write, hlocate]; rfl, ?_⟩
    rintro ⟨place, hok⟩
    exact absurd (hlocate.symm.trans hok) nofun

end Disk

end Chomsky.CommandLine
