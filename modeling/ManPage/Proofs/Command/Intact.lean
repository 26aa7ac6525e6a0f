import ManPage.Proofs.Command.Options
import ManPage.Proofs.Outcome
import ManPage.Proofs.Text.Utf8

/-! # Files under a run

A run changes one file at most, the one it was told to make, and only after the tree has been loaded. So
a failed run leaves all files alone, and a file may be converted in its own place. What it prints or saves
is the page that its options ask for.
-/
namespace ManPage.Command
open Load

namespace FileSystem

theorem lookup_filter_ne {name other : Text} (h : other ≠ name) (files : List (Text × List UInt8)) :
    (files.filter fun f => f.1 != name).lookup other = files.lookup other := by
  induction files with
  | nil => rfl
  | cons f files ih =>
    obtain ⟨own, bytes⟩ := f
    by_cases hown : own = name
    · have hother : (other == own) = false := beq_false_of_ne fun heq => h (heq.trans hown)
      rw [List.filter_cons_of_neg (by simp [hown]), ih, List.lookup_cons, hother]
    · rw [List.filter_cons_of_pos (by simp [hown]), List.lookup_cons, List.lookup_cons, ih]

section
variable (fs : FileSystem) (name : Text) (bytes : List UInt8)

@[simp] theorem content?_put : (fs.put name bytes).content? name = some bytes := by
  simp [put, content?]

theorem content?_put_of_ne {other : Text} (h : other ≠ name) :
    (fs.put name bytes).content? other = fs.content? other := by
  have hother : (other == name) = false := beq_false_of_ne h
  simp [put, content?, List.lookup_cons, hother, lookup_filter_ne h]

@[simp] theorem put_put (more : List UInt8) : (fs.put name bytes).put name more = fs.put name more := by
  simp [put]

/-- A file that is made anew has what is written to it and nothing else. -/
theorem append_create : (fs.create name).append name bytes = fs.put name bytes := by
  simp [create, append]

end

/-- A file with this name can be made or written where the path leads. -/
structure CanWrite (fs : FileSystem) (path name : Text) : Prop where
  locate : fs.locate path = .file name
  writable : fs.unwritable name = none

theorem place_eq_ok {fs : FileSystem} {path name : Text} :
    fs.place path = .ok name ↔ fs.CanWrite path name := by
  rw [place]
  constructor
  · intro h
    cases hlocate : fs.locate path with
    | file other =>
      cases hwritable : fs.unwritable other with
      | none =>
        simp only [hlocate, hwritable, Except.ok.injEq] at h
        subst h
        exact ⟨hlocate, hwritable⟩
      | some e => simp [hlocate, hwritable] at h
    | nowhere e | directory | slashed e => simp [hlocate] at h
  · intro h
    simp only [h.locate, h.writable]

/-- Nothing differs but the content of the file with this name. -/
structure SameBut (name : Text) (fs made : FileSystem) : Prop where
  content : ∀ other, other ≠ name → made.content? other = fs.content? other
  locate : made.locate = fs.locate
  unreadable : made.unreadable = fs.unreadable
  unwritable : made.unwritable = fs.unwritable

theorem sameBut_put (fs : FileSystem) (name : Text) (bytes : List UInt8) :
    SameBut name fs (fs.put name bytes) where
  content _ h := content?_put_of_ne fs name bytes h
  locate := rfl
  unreadable := rfl
  unwritable := rfl

end FileSystem

/-! ## Outcomes -/

/-- The run fails for the reason given, prints nothing, and leaves all files as they were. -/
structure Outcome.Refuses (fs : FileSystem) (reason : Text) (done : Outcome) : Prop where
  code : done.code = 1
  output : done.output = []
  complaint : done.complaint = some (complain reason)
  files : done.files = fs

/-- The run succeeds and prints the page, and leaves all files as they were. -/
structure Outcome.Prints (fs : FileSystem) (page : Text) (done : Outcome) : Prop where
  code : done.code = 0
  output : done.output = page
  complaint : done.complaint = none
  files : done.files = fs

/-- The run succeeds and prints nothing; the file has the page, and nothing else has changed. -/
structure Outcome.Saves (fs : FileSystem) (name page : Text) (done : Outcome) : Prop where
  code : done.code = 0
  output : done.output = []
  complaint : done.complaint = none
  content : done.files.content? name = some (Text.encode page)
  files : fs.SameBut name done.files

/-- The runs do the same, whatever of their logs is shown. -/
structure Outcome.Alike (done other : Outcome) : Prop where
  code : done.code = other.code
  output : done.output = other.output
  complaint : done.complaint = other.complaint
  files : done.files = other.files

section
variable (fs : FileSystem)

theorem refuses_failed (reason : Text) : (failed fs reason).Refuses fs reason := ⟨rfl, rfl, rfl, rfl⟩

theorem prints_carryOut (page : Text) (log : List LogLine) :
    (carryOut fs (.print page log)).Prints fs page := ⟨rfl, rfl, rfl, rfl⟩

theorem saves_carryOut {path name : Text} (h : fs.place path = .ok name) (page : Text)
    (log : List LogLine) : (carryOut fs (.save path page log)).Saves fs name page := by
  -- The page has been made by now, so it does no harm if the file that is emptied is the input.
  have hwrite : fs.write path (Text.encode page) = .ok (fs.put name (Text.encode page)) := by
    rw [FileSystem.write, h, ← FileSystem.append_create]
    rfl
  rw [carryOut, hwrite]
  exact ⟨rfl, rfl, rfl, fs.content?_put name _, fs.sameBut_put name _⟩

theorem refuses_carryOut {path : Text} {e : PathError} (h : fs.place path = .error e) (page : Text)
    (log : List LogLine) : (carryOut fs (.save path page log)).Refuses fs e.message := by
  have hwrite : fs.write path (Text.encode page) = .error e := by
    rw [FileSystem.write, h]
    rfl
  rw [carryOut, hwrite]
  exact refuses_failed fs e.message

end

/-! ## Conversions -/

section
variable {o : Options} {stdin : List UInt8} {fs : FileSystem}

theorem refuses_convertFile {e : OpenError}
    (h : Document.ofTarget (source stdin fs o.inputPath) = .error e) :
    (convertFile o stdin fs).Refuses fs e.message := by
  rw [convertFile, Options.plan, h]
  exact refuses_failed fs e.message

variable {d : Document} (h : Document.ofTarget (source stdin fs o.inputPath) = .ok d)
include h

theorem prints_convertFile (houtput : o.output = none) :
    (convertFile o stdin fs).Prints fs (o.layout.render d) := by
  simp only [convertFile, Options.plan, h, houtput]
  exact prints_carryOut fs _ _

theorem saves_convertFile {path name : Text} (houtput : o.output = some path)
    (hplace : fs.place path = .ok name) :
    (convertFile o stdin fs).Saves fs name (o.layout.render d) := by
  simp only [convertFile, Options.plan, h, houtput]
  exact saves_carryOut fs hplace _ _

theorem refuses_convertFile_of_place {path : Text} {e : PathError} (houtput : o.output = some path)
    (hplace : fs.place path = .error e) : (convertFile o stdin fs).Refuses fs e.message := by
  simp only [convertFile, Options.plan, h, houtput]
  exact refuses_carryOut fs hplace _ _

end

/-- No conversion looks at whether it is quiet. -/
theorem convertFile_quiet (o : Options) (quiet : Bool) (stdin : List UInt8) (fs : FileSystem) :
    (convertFile { o with quiet := quiet } stdin fs) = convertFile o stdin fs := rfl

/-! ## Runs -/

/-- The outcome with these lines shown of its log. -/
def Outcome.showing (done : Outcome) (log : List LogLine) : Outcome := { done with log := log }

section
variable {fs : FileSystem} {done : Outcome} (log : List LogLine)

theorem Outcome.Refuses.showing {reason : Text} (h : done.Refuses fs reason) :
    (done.showing log).Refuses fs reason := ⟨h.code, h.output, h.complaint, h.files⟩

theorem Outcome.Prints.showing {page : Text} (h : done.Prints fs page) :
    (done.showing log).Prints fs page := ⟨h.code, h.output, h.complaint, h.files⟩

theorem Outcome.Saves.showing {name page : Text} (h : done.Saves fs name page) :
    (done.showing log).Saves fs name page := ⟨h.code, h.output, h.complaint, h.content, h.files⟩

theorem alike_showing (more : List LogLine) : (done.showing log).Alike (done.showing more) :=
  ⟨rfl, rfl, rfl, rfl⟩

end

/-- A run with arguments that can be read is a conversion, of whose log some lines are shown. -/
theorem run_of_parse {args : List Text} {o : Options} (h : parse args = .ok o)
    (setting : Option Text) (stdin : List UInt8) (fs : FileSystem) :
    ∃ log, run args setting stdin fs = (convertFile o stdin fs).showing log := by
  rw [run, h]
  exact ⟨_, rfl⟩

/-- A run that fails leaves all files as they were, whatever its arguments are. -/
theorem files_of_failed_run {args : List Text} {setting : Option Text} {stdin : List UInt8}
    {fs : FileSystem} (h : (run args setting stdin fs).code ≠ 0) :
    (run args setting stdin fs).files = fs := by
  cases hargs : parse args with
  | error stop =>
    rw [run, hargs]
    cases stop <;> rfl
  | ok o =>
    obtain ⟨log, hrun⟩ := run_of_parse hargs setting stdin fs
    rw [hrun] at h ⊢
    cases hload : Document.ofTarget (source stdin fs o.inputPath) with
    | error e => exact (refuses_convertFile hload).files
    | ok d =>
      cases houtput : o.output with
      | none => exact (prints_convertFile hload houtput).files
      | some path =>
        cases hplace : fs.place path with
        | error e => exact (refuses_convertFile_of_place hload houtput hplace).files
        | ok name => exact absurd (saves_convertFile hload houtput hplace).code h

/-- A run whose tree does not load, or whose output cannot be made, fails and leaves all files as they
were. Otherwise it prints the page that its options ask for, or it makes the one file that it was told to
make, be it the input, and leaves all others as they were. Whether it is quiet makes no difference. All
options can be asked for. -/
theorem run_intact {args : List Text} {o : Options} (h : parse args = .ok o)
    (setting : Option Text) (stdin : List UInt8) (fs : FileSystem) :
    ((∀ d, ¬ Loads stdin fs o.input d) →
      ∃ e, Document.ofTarget (source stdin fs o.inputPath) = .error e ∧
        (run args setting stdin fs).Refuses fs e.message) ∧
    (∀ d, Loads stdin fs o.input d → ∃ page,
      page = Layout.render { banner := !o.noBanner, trailingNewline := o.trailingNewline } d ∧
      o.AsksFor d page ∧
      (o.output = none → (run args setting stdin fs).Prints fs page) ∧
      ∀ path, o.output = some path →
        (∀ name, fs.CanWrite path name → (run args setting stdin fs).Saves fs name page) ∧
        ((∀ name, ¬ fs.CanWrite path name) →
          ∃ e, fs.place path = .error e ∧ (run args setting stdin fs).Refuses fs e.message)) ∧
    (∀ args' setting' quiet, parse args' = .ok { o with quiet := quiet } →
      (run args' setting' stdin fs).Alike (run args setting stdin fs)) ∧
    parse o.spelled = .ok o := by
  obtain ⟨log, hrun⟩ := run_of_parse h setting stdin fs
  rw [hrun]
  refine ⟨?_, ?_, ?_, parse_spelled o⟩
  · intro hnone
    cases hload : Document.ofTarget (source stdin fs o.inputPath) with
    | error e => exact ⟨e, rfl, (refuses_convertFile hload).showing log⟩
    | ok d => exact absurd (loads_iff.mpr hload) (hnone d)
  · intro d hloads
    have hload := loads_iff.mp hloads
    refine ⟨o.layout.render d, rfl, asksFor_render o d, ?_, ?_⟩
    · intro houtput
      exact (prints_convertFile hload houtput).showing log
    · intro path houtput
      refine ⟨?_, ?_⟩
      · intro name hwrite
        exact (saves_convertFile hload houtput (FileSystem.place_eq_ok.mpr hwrite)).showing log
      · intro hnone
        cases hplace : fs.place path with
        | error e => exact ⟨e, rfl, (refuses_convertFile_of_place hload houtput hplace).showing log⟩
        | ok name => exact absurd (FileSystem.place_eq_ok.mp hplace) (hnone name)
  · intro args' setting' quiet h'
    obtain ⟨log', hrun'⟩ := run_of_parse h' setting' stdin fs
    rw [hrun', convertFile_quiet]
    exact alike_showing log' log

/-- A folder with a tree in it. -/
def treeFolder : FileSystem :=
  FileSystem.folder [("page.json".toList, Text.encode "[[\x7b\"type\":\"hr\"\x7d]]".toList)]

/-- A tree is converted in its own place, which is named by two different paths, to a page without a banner
and with a line feed at its end. -/
theorem run_intact_in_place :
    parse ["page.json".toList, "--no-banner".toList, "-qo".toList, "./page.json".toList,
        "--trailing-newline".toList] =
      .ok ⟨"page.json".toList, "./page.json".toList, true, true, true⟩ ∧
    Loads [] treeFolder "page.json".toList ⟨[.rule]⟩ ∧
    treeFolder.CanWrite "./page.json".toList "page.json".toList ∧
    (run ["page.json".toList, "--no-banner".toList, "-qo".toList, "./page.json".toList,
        "--trailing-newline".toList] none [] treeFolder).Saves
      treeFolder "page.json".toList ".ti 0\n\\l'\\n(.lu'\n".toList := by
  have hargs : parse ["page.json".toList, "--no-banner".toList, "-qo".toList, "./page.json".toList,
      "--trailing-newline".toList] =
      .ok ⟨"page.json".toList, "./page.json".toList, true, true, true⟩ := by
    decide +kernel
  have hload : Document.ofBytes (Text.encode "[[\x7b\"type\":\"hr\"\x7d]]".toList) = .ok ⟨[.rule]⟩ := by
    rw [Document.ofBytes, Text.Utf8.pieces_encode]
    decide +kernel
  have hlocate : treeFolder.locate "page.json".toList = .file "page.json".toList := by
    decide +kernel
  have hcontent : treeFolder.content? "page.json".toList =
      some (Text.encode "[[\x7b\"type\":\"hr\"\x7d]]".toList) := by
    decide +kernel
  have hloads : Loads [] treeFolder "page.json".toList ⟨[.rule]⟩ :=
    ⟨_, .file (by decide) hlocate rfl hcontent, hload⟩
  have hwrite : treeFolder.CanWrite "./page.json".toList "page.json".toList := ⟨by decide +kernel, rfl⟩
  obtain ⟨page, hpage, -, -, hsaves⟩ := (run_intact hargs none [] treeFolder).2.1 _ hloads
  have htext : page = ".ti 0\n\\l'\\n(.lu'\n".toList := by
    rw [hpage]
    decide +kernel
  rw [htext] at hsaves
  exact ⟨hargs, hloads, hwrite, (hsaves _ rfl).1 _ hwrite⟩

end ManPage.Command
