import ManPage.Command.Run
import ManPage.Proofs.Outcome

/-! # What options ask for

Each choice of options can be made by arguments. The options say which bytes are to be converted, those of
the standard input or of a file, and how the page is to begin and to end.
-/
namespace ManPage.Command

/-! ## Arguments -/

/-- Arguments that ask for the options. The path of the input comes last, where nothing is an option. -/
def Options.spelled (o : Options) : List Text :=
  (if o.noBanner then ["--no-banner".toList] else []) ++
  ((if o.trailingNewline then ["--trailing-newline".toList] else []) ++
  ((if o.quiet then ["--quiet".toList] else []) ++
  ((o.output.map ("--output=".toList ++ ·)).toList ++ "--".toList :: o.input.toList)))

theorem foldlM_append_of_ok {p p' : Parsing} {first : List Text}
    (h : first.foldlM Parsing.step p = .ok p') (more : List Text) :
    (first ++ more).foldlM Parsing.step p = more.foldlM Parsing.step p' := by
  rw [List.foldlM_append, h]
  rfl

theorem parse_spelled (o : Options) : parse o.spelled = .ok o := by
  obtain ⟨input, output, noBanner, trailingNewline, quiet⟩ := o
  have hbanner : (if noBanner then ["--no-banner".toList] else []).foldlM Parsing.step (.free {}) =
      .ok (.free { noBanner }) := by
    cases noBanner <;> rfl
  have hnewline : (if trailingNewline then ["--trailing-newline".toList] else []).foldlM
      Parsing.step (.free { noBanner }) = .ok (.free { noBanner, trailingNewline }) := by
    cases trailingNewline <;> rfl
  have hquiet : (if quiet then ["--quiet".toList] else []).foldlM Parsing.step
      (.free { noBanner, trailingNewline }) = .ok (.free { noBanner, trailingNewline, quiet }) := by
    cases quiet <;> rfl
  have houtput : (output.map ("--output=".toList ++ ·)).toList.foldlM Parsing.step
      (.free { noBanner, trailingNewline, quiet }) =
      .ok (.free { output, noBanner, trailingNewline, quiet }) := by
    cases output <;> rfl
  have hinput : ("--".toList :: input.toList).foldlM Parsing.step
      (.free { output, noBanner, trailingNewline, quiet }) =
      .ok (.operands { input, output, noBanner, trailingNewline, quiet }) := by
    cases input <;> rfl
  rw [parse, Options.spelled, foldlM_append_of_ok hbanner, foldlM_append_of_ok hnewline,
    foldlM_append_of_ok hquiet, foldlM_append_of_ok houtput, hinput]
  rfl

/-! ## What is converted -/

section
variable (stdin : List UInt8) (fs : FileSystem)

/-- The bytes of the input: those of the standard input if no path is given, or a hyphen in its place, and
else those of the file that the path denotes, if it is there and can be read. -/
inductive HasInput : Option Text → List UInt8 → Prop
  | absent : HasInput none stdin
  | hyphen : HasInput (some ['-']) stdin
  | file {path name : Text} {bytes : List UInt8} (hpath : path ≠ ['-'])
    (hlocate : fs.locate path = .file name) (hread : fs.unreadable name = none)
    (hcontent : fs.content? name = some bytes) : HasInput (some path) bytes

/-- The input is there and holds the tree. -/
def Loads (input : Option Text) (d : Document) : Prop :=
  ∃ bytes, HasInput stdin fs input bytes ∧ Document.ofBytes bytes = .ok d

variable {stdin fs}

theorem target_eq_file {path : Text} {bytes : List UInt8} : fs.target path = .file bytes ↔
    ∃ name, fs.locate path = .file name ∧ fs.unreadable name = none ∧ fs.content? name = some bytes := by
  rw [FileSystem.target]
  constructor
  · intro h
    cases hlocate : fs.locate path with
    | file name =>
      rw [hlocate] at h
      cases hcontent : fs.content? name with
      | none => simp [hcontent] at h
      | some own =>
        cases hread : fs.unreadable name with
        | none =>
          simp only [hcontent, hread, PathTarget.file.injEq] at h
          subst h
          exact ⟨name, rfl, hread, hcontent⟩
        | some e => simp [hcontent, hread] at h
    | nowhere e | directory | slashed e => simp [hlocate] at h
  · rintro ⟨name, hlocate, hread, hcontent⟩
    simp only [hlocate, hread, hcontent]

theorem source_eq_file {input : Option Text} {bytes : List UInt8} :
    source stdin fs (input.filter (· ≠ ['-'])) = .file bytes ↔ HasInput stdin fs input bytes := by
  have hfilter {path : Text} (hpath : path ≠ ['-']) : (some path).filter (· ≠ ['-']) = some path := by
    simp [hpath]
  constructor
  · intro h
    cases input with
    | none =>
      obtain rfl := PathTarget.file.inj h
      exact .absent
    | some path =>
      by_cases hpath : path = ['-']
      · subst hpath
        obtain rfl := PathTarget.file.inj h
        exact .hyphen
      · rw [hfilter hpath, source, target_eq_file] at h
        obtain ⟨name, hlocate, hread, hcontent⟩ := h
        exact .file hpath hlocate hread hcontent
  · intro h
    cases h with
    | absent | hyphen => rfl
    | file hpath hlocate hread hcontent =>
      rw [hfilter hpath, source, target_eq_file]
      exact ⟨_, hlocate, hread, hcontent⟩

theorem ofTarget_eq_ok {target : PathTarget} {d : Document} : Document.ofTarget target = .ok d ↔
    ∃ bytes, target = .file bytes ∧ Document.ofBytes bytes = .ok d := by
  cases target with
  | unreachable e => simp [Document.ofTarget]
  | directory => simp [Document.ofTarget]
  | file own =>
    rw [Document.ofTarget, Outcome.mapError_eq_ok]
    constructor
    · intro h
      exact ⟨own, rfl, h⟩
    · rintro ⟨bytes, hown, h⟩
      rwa [PathTarget.file.inj hown]

theorem loads_iff {o : Options} {d : Document} :
    Loads stdin fs o.input d ↔ Document.ofTarget (source stdin fs o.inputPath) = .ok d := by
  rw [ofTarget_eq_ok]
  simp only [Loads, Options.inputPath, source_eq_file]

end

/-! ## Pages that are asked for -/

/-- The page with the banner or without it, and with nothing added to its end. -/
def plainPage (noBanner : Bool) (d : Document) : Text :=
  if noBanner then (d.body.run 0).result else bannerLines ++ '\n' :: (d.body.run 0).result

/-- The banner is there unless it is to be omitted, and a line feed is added if one is to end the page and
none does. -/
structure Options.AsksFor (o : Options) (d : Document) (page : Text) : Prop where
  kept : o.trailingNewline = false ∨ (plainPage o.noBanner d).getLast? = some '\n' →
    page = plainPage o.noBanner d
  added : o.trailingNewline = true → (plainPage o.noBanner d).getLast? ≠ some '\n' →
    page = plainPage o.noBanner d ++ ['\n']

theorem asksFor_render (o : Options) (d : Document) : o.AsksFor d (o.layout.render d) := by
  have hpage : o.layout.render d = o.layout.close (plainPage o.noBanner d) := by
    obtain ⟨input, output, noBanner, trailingNewline, quiet⟩ := o
    cases noBanner <;> rfl
  rw [hpage, Layout.close]
  refine ⟨?_, ?_⟩
  · rintro (hnewline | hends)
    · simp [Options.layout, hnewline]
    · simp [hends]
  · intro hnewline hends
    simp [Options.layout, hnewline, hends]

end ManPage.Command
