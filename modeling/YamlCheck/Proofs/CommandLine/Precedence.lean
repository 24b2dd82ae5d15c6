import YamlCheck.CommandLine.Execution
import YamlCheck.Proofs.Config.Composing

/-!
# What the words of a run come to

A run is told what to do in three places: on the command line, in a configuration file and by the
defaults.  For each setting on its own the first of them that says something counts.  The main
statement is that the command runs with the configuration put together in this way, and that its
exit code and its output tell how this run went.
-/

namespace YamlCheck.CommandLine

open YamlCheck.Text YamlCheck.Yaml

/-! ## Options -/

namespace Invocation

theorem mem_topics {v : Invocation} {t : Topic} : t ∈ v.topics ↔ ∃ s ∈ v.settings, s.topic = t := by
  simp [topics]

theorem said?_eq_none {v : Invocation} {t : Topic} (h : t ∉ v.topics) : v.said? t = none := by
  unfold said?
  rw [List.findSome?_eq_none_iff]
  intro s hs
  rw [List.mem_reverse] at hs
  cases s with
  | taken topic value => rfl
  | said topic value =>
      have hother : topic ≠ t := fun hsame => h (mem_topics.mpr ⟨_, hs, hsame⟩)
      simp [hother]

theorem taken?_eq_none {v : Invocation} {t : Topic} (h : t ∉ v.topics) : v.taken? t = none := by
  unfold taken?
  rw [List.findSome?_eq_none_iff]
  intro s hs
  rw [List.mem_reverse] at hs
  cases s with
  | said topic value => rfl
  | taken topic value =>
      have hother : topic ≠ t := fun hsame => h (mem_topics.mpr ⟨_, hs, hsame⟩)
      simp [hother]

end Invocation

namespace RunOptions

/-- Options after what an invocation says about some topics has been read into them. -/
def reading (fs : FileSystem) (directory : Location) (v : Invocation) (topics : List Topic)
    (o : RunOptions) : RunOptions where
  recursive := if .recursive ∈ topics then v.said? .recursive else o.recursive
  allowDuplicates :=
    if .allowDuplicates ∈ topics then v.said? .allowDuplicates else o.allowDuplicates
  parser := if .parser ∈ topics then (v.taken? .parser).elim o.parser Dialect.ofName? else o.parser
  config :=
    if .config ∈ topics then
      (v.taken? .config).elim o.config fun value => (configRule.read fs directory value).toOption
    else o.config
  projectDir :=
    if .projectDir ∈ topics then
      (v.taken? .projectDir).elim o.projectDir fun value =>
        (projectDirRule.read fs directory value).toOption
    else o.projectDir
  verbose := if .verbose ∈ topics then (v.said? .verbose).getD false else o.verbose

variable {fs : FileSystem} {directory : Location} {v : Invocation} {o o' : RunOptions} {t : Topic}

theorem ofName?_of_readParserName {name : String} {d : Dialect}
    (h : readParserName name = .ok d) : Dialect.ofName? name = some d := by
  unfold readParserName at h
  cases hname : Dialect.ofName? name with
  | none => simp [hname] at h
  | some d' =>
      simp only [hname, Except.ok.injEq] at h
      rw [h]

theorem eq_of_reading {α : Type} {r : Except UsageError α} {set : α → RunOptions}
    (h : (do return set (← r)) = Except.ok o') : ∃ x, r = .ok x ∧ o' = set x := by
  cases r with
  | error e => cases h
  | ok x =>
      cases h
      exact ⟨x, rfl, rfl⟩

theorem reading_withTopic (h : withTopic fs directory v o t = .ok o') (topics : List Topic) :
    reading fs directory v (t :: topics) o = reading fs directory v topics o' := by
  cases t with
  | recursive =>
      cases h
      simp [reading]
  | allowDuplicates =>
      cases h
      simp [reading]
  | verbose =>
      cases h
      simp [reading]
  | parser =>
      cases hname : v.taken? .parser with
      | none =>
          unfold withTopic at h
          rw [hname] at h
          cases h
          simp [reading, hname]
      | some name =>
          unfold withTopic at h
          rw [hname] at h
          obtain ⟨d, hd, rfl⟩ := eq_of_reading h
          have hsame := ofName?_of_readParserName hd
          simp [reading, hname, hsame]
  | config =>
      cases hvalue : v.taken? .config with
      | none =>
          unfold withTopic at h
          rw [hvalue] at h
          cases h
          simp [reading, hvalue]
      | some value =>
          unfold withTopic at h
          rw [hvalue] at h
          obtain ⟨p, hp, rfl⟩ := eq_of_reading h
          have hsame : (configRule.read fs directory value).toOption = some p := by rw [hp]; rfl
          simp [reading, hvalue, hsame]
  | projectDir =>
      cases hvalue : v.taken? .projectDir with
      | none =>
          unfold withTopic at h
          rw [hvalue] at h
          cases h
          simp [reading, hvalue]
      | some value =>
          unfold withTopic at h
          rw [hvalue] at h
          obtain ⟨p, hp, rfl⟩ := eq_of_reading h
          have hsame : (projectDirRule.read fs directory value).toOption = some p := by rw [hp]; rfl
          simp [reading, hvalue, hsame]
  | help =>
      cases h
      simp [reading]
  | version =>
      cases h
      simp [reading]

theorem reading_foldlM {topics : List Topic}
    (h : topics.foldlM (withTopic fs directory v) o = .ok o') :
    o' = reading fs directory v topics o := by
  induction topics generalizing o with
  | nil =>
      cases h
      simp [reading]
  | cons t topics ih =>
      rw [List.foldlM_cons] at h
      cases ht : withTopic fs directory v o t with
      | error e => simp [ht, bind, Except.bind] at h
      | ok o₁ =>
          rw [ht] at h
          rw [reading_withTopic ht]
          exact ih h

/-- The options of an invocation are what it says last about each topic. -/
theorem ofInvocation_eq (h : ofInvocation fs directory v = .ok o) :
    o.recursive = v.said? .recursive ∧ o.allowDuplicates = v.said? .allowDuplicates ∧
      o.parser = (v.taken? .parser).bind Dialect.ofName? ∧
      o.config =
        ((v.taken? .config).bind fun value => (configRule.read fs directory value).toOption) ∧
      o.projectDir =
        (v.taken? .projectDir).bind fun value =>
          (projectDirRule.read fs directory value).toOption := by
  rw [reading_foldlM h]
  have said : ∀ t, (if t ∈ v.topics then v.said? t else none) = v.said? t := by
    intro t
    by_cases ht : t ∈ v.topics
    · rw [if_pos ht]
    · rw [if_neg ht, v.said?_eq_none ht]
  have taken : ∀ {α : Type} (f : String → Option α) t,
      (if t ∈ v.topics then (v.taken? t).elim none f else none) = (v.taken? t).bind f := by
    intro α f t
    by_cases ht : t ∈ v.topics
    · rw [if_pos ht]
      cases v.taken? t <;> rfl
    · rw [if_neg ht, v.taken?_eq_none ht]
      rfl
  exact ⟨said _, said _, taken _ _, taken _ _, taken _ _⟩

/-- A configuration with what options and search paths say in its place. -/
def laidOver (o : RunOptions) (searchPaths : List String) (c : Config) : Config where
  searchPaths := if searchPaths.isEmpty then c.searchPaths else searchPaths.map Letters.ofText
  searchRecursive := o.recursive.getD c.searchRecursive
  allowDuplicates := o.allowDuplicates.getD c.allowDuplicates
  parser := o.parser.getD c.parser

/-- What options and search paths say about a setting. -/
def said (o : RunOptions) (searchPaths : List String) : Field → Option Given
  | .searchPaths =>
    if searchPaths.isEmpty then none else some (.ofTexts (searchPaths.map Letters.ofText))
  | .searchRecursive => o.recursive.map .ofBool
  | .allowDuplicates => o.allowDuplicates.map .ofBool
  | .parser => o.parser.map fun d => .ofText d.name

theorem values_eq (o : RunOptions) (searchPaths : List String) :
    o.values searchPaths = Config.valuesOf (o.said searchPaths) Field.all := by
  by_cases h : searchPaths.isEmpty <;>
    simp [values, Config.valuesOf, Field.all, said, h, Option.map_map, Function.comp_def]

theorem isNull_said {searchPaths : List String} {f : Field} {g : Given}
    (h : o.said searchPaths f = some g) : g.isNull = false := by
  cases f with
  | searchPaths =>
      simp only [said, Option.ite_none_left_eq_some, Option.some.injEq] at h
      rw [← h.2]
      rfl
  | _ =>
      simp only [said, Option.map_eq_some_iff] at h
      obtain ⟨_, -, rfl⟩ := h
      rfl

/-- Options and search paths laid over a configuration, or over the defaults if there is none. -/
theorem buildOver_values (base : Option Config) (o : RunOptions) (searchPaths : List String) :
    Config.buildOver base (o.values searchPaths) = .ok (o.laidOver searchPaths (base.getD {})) := by
  have hbuild : Config.build base (o.values searchPaths) =
      .ok (o.laidOver searchPaths (base.getD {})) := by
    rw [values_eq]
    apply Config.build_eq_ok Config.valuesOf_names
    intro f
    rw [Config.lastSaid_valuesOf fun f g h => isNull_said h, if_pos f.mem_all]
    cases f with
    | searchPaths => by_cases h : searchPaths.isEmpty <;> simp [said, laidOver, Config.given, h]
    | searchRecursive => cases h : o.recursive <;> simp [said, laidOver, Config.given, h]
    | allowDuplicates => cases h : o.allowDuplicates <;> simp [said, laidOver, Config.given, h]
    | parser => cases h : o.parser <;> simp [said, laidOver, Config.given, h]
  have hnames : ∀ v ∈ o.values searchPaths, v.1 ≠ Config.baseName := by
    rw [values_eq]
    intro v hv
    obtain ⟨f, hf⟩ := Config.valuesOf_names v hv
    rw [hf]
    cases f <;> decide
  rw [Config.buildOver_eq hnames, hbuild]

end RunOptions

/-! ## Performances -/

/-- A configuration with what an invocation says in its place.  An option that is given several
times counts as it is given last. -/
def Invocation.laidOver (v : Invocation) (c : Config) : Config where
  searchPaths := if v.arguments.isEmpty then c.searchPaths else v.arguments.map Letters.ofText
  searchRecursive := (v.said? .recursive).getD c.searchRecursive
  allowDuplicates := (v.said? .allowDuplicates).getD c.allowDuplicates
  parser := ((v.taken? .parser).bind Dialect.ofName?).getD c.parser

theorem RunOptions.laidOver_ofInvocation {fs : FileSystem} {directory : Location} {v : Invocation}
    {o : RunOptions} (h : ofInvocation fs directory v = .ok o) (c : Config) :
    o.laidOver v.arguments c = v.laidOver c := by
  obtain ⟨hrecursive, hduplicates, hparser, -, -⟩ := ofInvocation_eq h
  simp only [laidOver, Invocation.laidOver, hrecursive, hduplicates, hparser]

/-- The configuration that a run starts from: the one in the file that is asked for, or else the
one in the default file of a directory, or none if this is no regular file. -/
inductive StartsFrom (limits : Limits) (fs : FileSystem) (directory : Path) :
    Option Path → Option Config → Prop
  | asked {path c} :
      (Config.load limits fs path).2 = .ok c → StartsFrom limits fs directory (some path) (some c)
  | unasked {c} :
      fs.isFile (directory.child Config.defaultFileName) = .ok true →
      (Config.load limits fs (directory.child Config.defaultFileName)).2 = .ok c →
      StartsFrom limits fs directory none (some c)
  | nothing :
      fs.isFile (directory.child Config.defaultFileName) = .ok false →
      StartsFrom limits fs directory none none

theorem StartsFrom.baseConfig_eq {limits : Limits} {fs : FileSystem} {directory : Path}
    {asked : Option Path} {base : Option Config}
    (h : StartsFrom limits fs directory asked base) :
    (baseConfig limits fs directory asked).2 = .ok base := by
  cases h with
  | asked hload => simp [baseConfig, hload, Except.map]
  | unasked hfile hload => simp [baseConfig, Config.findDefault, hfile, hload, Except.map]
  | nothing hfile => simp [baseConfig, Config.findDefault, hfile]

/-- The directory that an invocation is about: the one it names, or else the working directory. -/
def RunOptions.project (o : RunOptions) (directory : Location) : Path :=
  o.projectDir.getD (FileSystem.pathOf directory)

section Performing

variable {limits : Limits} {fs : FileSystem} {directory : Location} {o : RunOptions}
  {searchPaths : List String}

theorem perform_of_error {s : Stop}
    (h : (baseConfig limits fs (o.project directory) o.config).2 = .error s) :
    (perform limits fs directory o searchPaths).stop = some s := by
  rw [RunOptions.project] at h
  simp only [perform, h]

theorem perform_of_ok {base : Option Config}
    (h : (baseConfig limits fs (o.project directory) o.config).2 = .ok base) :
    let run := (o.laidOver searchPaths (base.getD {})).run limits fs (o.project directory)
    (perform limits fs directory o searchPaths).reports = run.reports ∧
      (perform limits fs directory o searchPaths).stop = run.stop := by
  intro run
  rw [RunOptions.project] at h
  simp only [perform, h, RunOptions.buildOver_values]
  exact ⟨rfl, rfl⟩

end Performing

/-! ## Outcomes -/

/-- An outcome tells how something has ended that may have been stopped: by its exit code, on the
standard output and, if it was stopped by a failure, by what it says about this failure and about
the cause of it. -/
structure Outcome.Tells (r : Outcome) (stop : Option Stop) : Prop where
  exit_zero_iff : r.exitCode = 0 ↔ stop = none
  success_iff : r.exitCode = 0 ∧ r.out = "All YAML files are valid.\n" ↔ stop = none
  failure : ∀ f, stop = some (.failure f) →
    r.exitCode = 1 ∧ r.out = "" ∧
      r.err = "Error: " ++ f.message.printed ++ "\n"
        ++ f.causeText?.elim "" fun cause => "Caused by: " ++ cause.printed ++ "\n"

/-- The log of an outcome has these reports, in order, and otherwise only what is said to those who
want to know more. -/
def Outcome.Logs (r : Outcome) (reports : List Report) : Prop :=
  (r.log.filter fun line => line.1 = .info) = reports.map fun report => (.info, report.text)

namespace Performance

variable {fs : FileSystem} {setup : Logging.Setup}

theorem exitCode_outcome (p : Performance) :
    (p.outcome setup fs).exitCode = p.stop.elim 0 fun s => (stopText s).2 := by
  cases hstop : p.stop <;> simp only [outcome, hstop, Option.elim]

theorem out_outcome (p : Performance) :
    (p.outcome setup fs).out = p.stop.elim "All YAML files are valid.\n" fun _ => "" := by
  cases hstop : p.stop <;> simp only [outcome, hstop, Option.elim]

/-- Where logging was set up without a word, only the stop is told of. -/
theorem err_outcome (quiet : setup.lines = []) (p : Performance) :
    (p.outcome setup fs).err = p.stop.elim "" fun s => (stopText s).1 := by
  have hsaid : "".intercalate (setup.lines.map (· ++ "\n")) = "" := by
    rw [quiet]
    rfl
  cases hstop : p.stop <;> simp only [outcome, hstop, Option.elim, hsaid, String.empty_append]

theorem stopText_failure (f : Failure) :
    (stopText (.failure f)).1 = "Error: " ++ f.message.printed ++ "\n" ++
      (match f.causeText? with
        | some t => "Caused by: " ++ t.printed ++ "\n"
        | none => "") := rfl

theorem stopText_code_ne_zero (s : Stop) : (stopText s).2 ≠ 0 := by
  cases s with
  | failure f => exact Nat.succ_ne_zero 0
  | incident i => exact Nat.succ_ne_zero 2

theorem exitCode_eq_zero_iff (p : Performance) :
    (p.outcome setup fs).exitCode = 0 ↔ p.stop = none := by
  rw [exitCode_outcome]
  cases p.stop with
  | none => simp only [Option.elim]
  | some s =>
      have hcode : (stopText s).2 ≠ 0 := stopText_code_ne_zero s
      simp only [Option.elim, hcode, reduceCtorEq]

theorem tells_outcome (quiet : setup.lines = []) (p : Performance) :
    (p.outcome setup fs).Tells p.stop := by
  constructor
  case exit_zero_iff => exact p.exitCode_eq_zero_iff
  case success_iff =>
    constructor
    · intro h
      exact p.exitCode_eq_zero_iff.mp h.1
    · intro hstop
      have hout := @out_outcome fs setup p
      rw [hstop] at hout
      exact ⟨p.exitCode_eq_zero_iff.mpr hstop, hout⟩
  case failure =>
    intro f hstop
    rw [exitCode_outcome, out_outcome, err_outcome quiet, hstop]
    have herr : (stopText (.failure f)).1 = "Error: " ++ f.message.printed ++ "\n"
        ++ f.causeText?.elim "" fun cause => "Caused by: " ++ cause.printed ++ "\n" := by
      rw [stopText_failure]
      cases f.causeText? <;> rfl
    exact ⟨rfl, rfl, herr⟩

theorem logs_outcome (enabled : setup.state.isEnabled Logging.reporterName .info = true)
    (p : Performance) : (p.outcome setup fs).Logs p.reports := by
  have hlog : (p.outcome setup fs).log = p.log setup.state := by
    cases hstop : p.stop <;> simp only [outcome, hstop]
  have hnotices : ((p.notices.filter fun n => setup.state.isEnabled (loggerOf n) .debug).map
      fun n => (Logging.Level.debug, n.text)).filter (fun line => line.1 = .info) = [] := by
    simp [List.filter_map, Function.comp_def, Logging.Level.debug, Logging.Level.info]
  have hreports : (p.reports.map fun r => (Logging.Level.info, r.text)).filter
      (fun line => line.1 = .info) = p.reports.map fun r => (Logging.Level.info, r.text) := by
    rw [List.filter_eq_self]
    simp
  have hall : p.reports.filter (fun _ => setup.state.isEnabled Logging.reporterName .info) =
      p.reports := by
    rw [List.filter_eq_self]
    exact fun _ _ => enabled
  rw [Outcome.Logs, hlog, log]
  simp only [List.filter_append, hnotices, hall, hreports, List.nil_append]

theorem after_outcome (p : Performance) : (p.outcome setup fs).after = fs := by
  cases hstop : p.stop <;> simp [outcome, hstop]

end Performance

/-! ## Logging in a run -/

/-- A preparation that came to an end without a line and lets the reports of a run through, however
much more is to be told. -/
def isReady (r : Except Incident Unit × Logging.Setup) : Bool :=
  r.1.isOk && r.2.lines.isEmpty && [true, false].all fun verbose =>
    (r.2.state.withVerbosity verbose).isEnabled Logging.reporterName .info

theorem setUp_of_isReady {w : Logging.World} {fs : FileSystem}
    {source : Logging.DeclarationSource} {s : Logging.State}
    (h : isReady ((Logging.SetUp.prepare w fs source).run.run { state := s }) = true)
    (verbose : Bool) :
    ∃ setup, Logging.setUp w fs source verbose s = .ok setup ∧ setup.lines = [] ∧
      setup.state.isEnabled Logging.reporterName .info = true := by
  unfold Logging.setUp
  generalize (Logging.SetUp.prepare w fs source).run.run { state := s } = r at h ⊢
  obtain ⟨r, setup⟩ := r
  simp only [isReady, List.all_cons, List.all_nil, Bool.and_true, Bool.and_eq_true,
    List.isEmpty_iff] at h
  obtain ⟨⟨hok, hlines⟩, hloud, hquiet⟩ := h
  cases r with
  | error i => cases hok
  | ok u => cases verbose <;> exact ⟨_, rfl, hlines, by assumption⟩

/-- The packaged declaration is read whatever the file system is. -/
theorem prepare_packaged (w : Logging.World) (fs fs' : FileSystem) :
    Logging.SetUp.prepare w fs .packaged = Logging.SetUp.prepare w fs' .packaged := rfl

/-- The declaration of the program itself is carried out without a word, and then the reports of a
run are let through. -/
theorem setUp_packaged (fs : FileSystem) (verbose : Bool) :
    ∃ setup, Logging.setUp ownWorld fs .packaged verbose .initial = .ok setup ∧
      setup.lines = [] ∧ setup.state.isEnabled Logging.reporterName .info = true := by
  apply setUp_of_isReady
  rw [prepare_packaged ownWorld fs ⟨.directory .ofDirectory []⟩]
  decide +kernel

/-! ## Runs -/

theorem eq_of_toOption {α ε : Type} {r : Except ε α} {x : α} (h : r.toOption = some x) :
    r = .ok x := by
  cases r with
  | error e => cases h
  | ok y =>
      cases h
      rfl

section Running

variable {limits : Limits} {fs : FileSystem} {directory : Location} {words : List String}
  {v : Invocation} {o : RunOptions}

theorem execute_run_eq (limits : Limits) (fs : FileSystem) (directory : Location)
    (words : List String) :
    execute limits fs directory ("run" :: words) = executeRun limits fs directory words := by
  have hwhole : readWords Command.whole.grammar ("run" :: words) = .ok ⟨[], "run" :: words⟩ := rfl
  simp [execute, hwhole, information?, Invocation.topics, Command.ofName?]

theorem executeRun_eq {setup : Logging.Setup}
    (hsetup : Logging.setUp ownWorld fs .packaged o.verbose .initial = .ok setup)
    (hwords : readWords Command.run.grammar words = .ok v)
    (hinformation : information? fs .run v = none)
    (hoptions : RunOptions.ofInvocation fs directory v = .ok o) :
    executeRun limits fs directory words =
      .ok ((perform limits fs directory o v.arguments).outcome setup fs) := by
  simp only [executeRun, hwords, hinformation, hoptions, hsetup]
  rfl

/-- An accepted invocation of the command runs with the configuration in which each setting is what
the invocation says, else what the configuration file says, else the default; its outcome tells how
this run ended.  If the configuration file itself cannot be used, the outcome tells this. -/
theorem run_settles_each_setting (limits : Limits)
    (hwords : readWords Command.run.grammar words = .ok v)
    (hinformation : information? fs .run v = none)
    (hoptions : RunOptions.ofInvocation fs directory v = .ok o) :
    ∃ outcome, execute limits fs directory ("run" :: words) = .ok outcome ∧ outcome.after = fs ∧
      (∀ base, StartsFrom limits fs (o.project directory) o.config base →
        let run := (v.laidOver (base.getD {})).run limits fs (o.project directory)
        outcome.Tells run.stop ∧ outcome.Logs run.reports) ∧
      (∀ s, (baseConfig limits fs (o.project directory) o.config).2 = .error s →
        outcome.Tells (some s)) := by
  obtain ⟨setup, hsetup, hquiet, henabled⟩ := setUp_packaged fs o.verbose
  let p := perform limits fs directory o v.arguments
  have htells : (p.outcome setup fs).Tells p.stop := p.tells_outcome hquiet
  have hlogs : (p.outcome setup fs).Logs p.reports := p.logs_outcome henabled
  have hexecute : execute limits fs directory ("run" :: words) = .ok (p.outcome setup fs) := by
    rw [execute_run_eq, executeRun_eq hsetup hwords hinformation hoptions]
  refine ⟨p.outcome setup fs, hexecute, p.after_outcome, ?_, ?_⟩
  · intro base hbase run
    obtain ⟨hreports, hstop⟩ := perform_of_ok hbase.baseConfig_eq
    rw [RunOptions.laidOver_ofInvocation hoptions] at hreports hstop
    have hstop : p.stop = run.stop := hstop
    have hreports : p.reports = run.reports := hreports
    exact ⟨hstop ▸ htells, hreports ▸ hlogs⟩
  · intro s hs
    have hstop : p.stop = some s := perform_of_error hs
    exact hstop ▸ htells

end Running

def configuredProject : FileSystem where
  root := .directory .ofDirectory
    [("project", .directory .ofDirectory
      [(".yamlvalidator.yaml", .file .ofFile
          "searchPaths: [conf]\nallow_duplicates: true\nparser: pyyaml\n".toUTF8.toList),
        ("conf", .directory .ofDirectory
          [("a.yaml", .file .ofFile "\"a\": 1\n\"a\": 2\n".toUTF8.toList)])])]

def strictWords : List String := ["-r", "--no-allow-duplicates", "--parser", "ruamel"]

def strictInvocation : Invocation where
  settings := [.said .recursive true, .said .allowDuplicates false, .taken .parser "ruamel"]
  arguments := []

/-- Options in which the words of a run and the configuration file of its project disagree: the
words count where they say something, and the run is told of as it went. -/
theorem configuredProject_settled :
    readWords Command.run.grammar strictWords = .ok strictInvocation ∧
      StartsFrom .usual configuredProject ⟨.slash, ["project"]⟩ none
        (some ⟨["conf"], false, true, .classic⟩) ∧
      ∃ outcome, execute .usual configuredProject ["project"] ("run" :: strictWords) = .ok outcome ∧
        let run := Config.run ⟨["conf"], true, false, .modern⟩ .usual configuredProject
          ⟨.slash, ["project"]⟩
        outcome.Tells run.stop ∧ outcome.Logs run.reports := by
  have hwords : readWords Command.run.grammar strictWords = .ok strictInvocation := rfl
  have hload : (Config.load .usual configuredProject
      ⟨.slash, ["project", ".yamlvalidator.yaml"]⟩).2 = .ok ⟨["conf"], false, true, .classic⟩ :=
    eq_of_toOption (by decide +kernel)
  have hstart : StartsFrom .usual configuredProject ⟨.slash, ["project"]⟩ none
      (some ⟨["conf"], false, true, .classic⟩) := .unasked rfl hload
  have hinformation : information? configuredProject .run strictInvocation = none := rfl
  have hoptions : RunOptions.ofInvocation configuredProject ["project"] strictInvocation =
      .ok ⟨some true, some false, some .modern, none, none, false⟩ := rfl
  obtain ⟨outcome, hexecute, -, hsettled, -⟩ :=
    run_settles_each_setting .usual hwords hinformation hoptions
  have hlaid : strictInvocation.laidOver ⟨["conf"], false, true, .classic⟩ =
      ⟨["conf"], true, false, .modern⟩ := rfl
  have hrun := hsettled _ hstart
  rw [Option.getD_some, hlaid] at hrun
  exact ⟨hwords, hstart, outcome, hexecute, hrun⟩

end YamlCheck.CommandLine
