import YamlCheck.Proofs.CommandLine.Precedence
import YamlCheck.Proofs.FileSystem.Written
import YamlCheck.Proofs.Run.Gained
import YamlCheck.Proofs.Yaml.Widening

/-!
# The initial configuration file

The file that is made by `init` says what the defaults say, and no backend has anything against it.
So a run that has found all well finds all well again, though the file may now be the configuration
that it starts from, or one of the files that it checks.
-/

namespace YamlCheck.CommandLine

open YamlCheck.Text YamlCheck.Yaml YamlCheck.FileSystem

/-! ## What the file says -/

def initialBytes : List UInt8 := Utf8.encode initialConfig

/-- Whether a document is what the file says: a mapping of three settings, the first one a list. -/
def saysDefaults (d : Document) : Bool :=
  match d.root with
  | .ref i =>
    match d.cells.cell i with
    | .map [(.scalar paths, .ref j), (.scalar recursive, .scalar (.bool false)),
        (.scalar duplicates, .scalar (.bool false))] =>
      paths == .text "searchPaths" && recursive == .text "searchRecursive"
        && duplicates == .text "allowDuplicates"
        && match d.cells.cell j with
          | .list [.scalar path] => path == .text "src/main/resources/"
          | _ => false
    | _ => false
  | _ => false

/-- What the file says, as a configuration is read from it. -/
def initialEntries : Entries :=
  let paths : List Tree := [.scalar (.text "src/main/resources/")]
  [(.scalar (.text "searchPaths"), ⟨.list paths, some paths⟩),
    (.scalar (.text "searchRecursive"), ⟨.scalar (.bool false), none⟩),
    (.scalar (.text "allowDuplicates"), ⟨.scalar (.bool false), none⟩)]

theorem read_initialEntries : Config.read initialEntries = .ok {} :=
  eq_of_toOption (by decide +kernel)

variable {limits : Limits}

theorem entries?_of_saysDefaults {d : Document} (h : saysDefaults d = true) :
    d.entries? limits = some initialEntries := by
  unfold saysDefaults at h
  split at h
  case h_2 => cases h
  rename_i i hroot
  split at h
  case h_2 => cases h
  rename_i paths j recursive duplicates hmap
  simp only [Bool.and_eq_true, beq_iff_eq] at h
  obtain ⟨⟨⟨rfl, rfl⟩, rfl⟩, hlist⟩ := h
  split at hlist
  case h_2 => cases hlist
  rename_i path hcell
  obtain rfl := beq_iff_eq.mp hlist
  have hscalar : ∀ n around x, Tree.unfold d.cells n around (.scalar x) = .scalar x := by
    intro n around x
    cases n <;> rfl
  simp [Document.entries?, hroot, hmap, Given.ofValue, Value.shallow, Tree.unfold, hcell, hscalar,
    initialEntries]

/-- The document in the file is a mapping that is read as the defaults. -/
theorem loadSingle_initialBytes (limits : Limits) :
    ∃ d, loadSingle limits (Source.ofTextFile initialBytes) = .ok (some d) ∧
      d.entries? limits = some initialEntries := by
  have hany : (loadSingle .least (Source.ofTextFile initialBytes)).toOption.join.any
      saysDefaults = true := by decide +kernel
  obtain ⟨d, hjoin, hsays⟩ := (Option.any_eq_true _ _).mp hany
  have hload := eq_of_toOption (Option.join_eq_some_iff.mp hjoin)
  exact ⟨d, loadSingle_within limits.least_within hload, entries?_of_saysDefaults hsays⟩

theorem load_initialBytes (d : Dialect) (duplicates : Duplicates) :
    (load limits d duplicates initialBytes).error = none := by
  have hleast : (load .least d duplicates initialBytes).error = none := by
    rw [← Option.isNone_iff_eq_none]
    cases d <;> cases duplicates <;> decide +kernel
  rw [load_within limits.least_within hleast]
  exact hleast

/-- The backend of a dialect accepts the file, whatever the policy on repeated keys. -/
theorem welcomes_initialBytes (d : Dialect) (duplicates : Duplicates) :
    Checker.Welcomes ⟨.ofDialect limits d, duplicates⟩ initialBytes := by
  intro file
  simp only [Backend.ofDialect, load_initialBytes, Option.map_none]

variable {fs fs' : FileSystem} {place : Location} {name : String}

/-- The file is loaded as the defaults. -/
theorem load_initial {p : Path} (h : fs.lookUp true p = .ok (.file .ofFile initialBytes)) :
    (Config.load limits fs p).2 = .ok {} := by
  obtain ⟨d, hload, hes⟩ := loadSingle_initialBytes limits
  have hfile : fs.isFile p = .ok true := by simp only [isFile, isKind, h, Node.isFile]
  have hread : fs.read p = .ok initialBytes := by
    simp only [FileSystem.read, h, bind, Except.bind]
    rfl
  have hnull : ∀ cells, d ≠ ⟨.scalar .null, cells⟩ := by
    rintro cells rfl
    simp [Document.entries?] at hes
  have hdocument : (Config.ofDocument limits p (some d)).2 = .ok {} := by
    unfold Config.ofDocument
    split
    · rename_i heq
      cases heq
    · rename_i cells heq
      exact absurd (Option.some.inj heq) (hnull cells)
    · rename_i other hother
      cases hother
      simp only [hes, read_initialEntries]
  simp only [Config.load, hfile, hread, hload, hdocument]

/-! ## Runs with the file -/

/-- A configuration that could be loaded is loaded as before. -/
theorem load_gained {bytes : List UInt8} (h : Gains fs fs' place name bytes) {p : Path}
    {c : Config} (hload : (Config.load limits fs p).2 = .ok c) :
    (Config.load limits fs' p).2 = .ok c := by
  unfold Config.load at hload ⊢
  cases hfile : fs.isFile p with
  | error i => simp [hfile] at hload
  | ok isFile =>
      cases isFile with
      | false => simp [hfile, Config.failed] at hload
      | true =>
          rcases h.isFile_or hfile with hfile' | ⟨hfalse, -⟩
          case inr => cases hfalse
          cases hread : fs.read p with
          | error r =>
              simp only [hfile, hread] at hload
              split at hload <;> simp [Config.failed] at hload
          | ok content =>
              simp only [hfile', h.read_eq_ok hread]
              simpa only [hfile, hread] using hload

/-- A run starts from the configuration that it started from, or from the new file instead of the
defaults, which is the same. -/
theorem baseConfig_gained (h : Gains fs fs' place name initialBytes) {directory : Path}
    {asked : Option Path} {base : Option Config}
    (hbase : (baseConfig limits fs directory asked).2 = .ok base) :
    ∃ base', (baseConfig limits fs' directory asked).2 = .ok base' ∧
      base'.getD {} = base.getD {} := by
  have hload : ∀ p, ((Config.load limits fs p).2.map some : Except Stop (Option Config)) =
      .ok base → (Config.load limits fs' p).2.map some = .ok base := by
    intro p hp
    cases hc : (Config.load limits fs p).2 with
    | error s => simp [hc, Except.map] at hp
    | ok c =>
        rw [load_gained h hc]
        rwa [hc] at hp
  unfold baseConfig at hbase ⊢
  cases asked with
  | some p => exact ⟨base, hload p hbase, rfl⟩
  | none =>
      simp only [Config.findDefault] at hbase ⊢
      cases hfile : fs.isFile (directory.child Config.defaultFileName) with
      | error i => simp [hfile] at hbase
      | ok isFile =>
          simp only [hfile] at hbase
          rcases h.isFile_or hfile with hfile' | ⟨rfl, hfile', hlook'⟩
          · simp only [hfile']
            cases isFile with
            | true => exact ⟨base, hload _ hbase, rfl⟩
            | false => exact ⟨base, hbase, rfl⟩
          · simp only [hfile', load_initial hlook', Except.map]
            cases hbase
            exact ⟨some {}, rfl, rfl⟩

/-- A path that a rule has allowed is allowed again. -/
theorem PathRule.read_gained {bytes : List UInt8} (h : Gains fs fs' place name bytes)
    {rule : PathRule} (hrule : rule.mustExist = true ∨ rule.allowsFile = true)
    {directory : Location} {value : String} {p : Path}
    (hread : rule.read fs directory value = .ok p) : rule.read fs' directory value = .ok p := by
  unfold read at hread ⊢
  rw [h.canonicalFrom_eq]
  cases hfrom : fs.canonicalFrom directory value with
  | error r => simp [hfrom] at hread
  | ok loc =>
      simp only [hfrom] at hread ⊢
      have hsees := h.lookUp_sees true (pathOf loc)
      generalize fs.lookUp true (pathOf loc) = r at hsees hread
      generalize fs'.lookUp true (pathOf loc) = r' at hsees ⊢
      cases hsees with
      | kin hkin =>
          dsimp only at hread ⊢
          rw [hkin.isFile_eq, hkin.isDirectory_eq, hkin.mode_eq]
          exact hread
      | refused r => exact hread
      | beyond => exact hread
      | found =>
          rcases hrule with hmust | hfile
          · simp [hmust] at hread
          · -- The new file is one that can be read.
            have hreadable : (Node.file Mode.ofFile bytes).mode.read = true := rfl
            dsimp only at hread ⊢
            rw [hreadable]
            by_cases hmust : rule.mustExist = true
            · simp [hmust] at hread
            · simpa [hmust, hfile, Node.isDirectory] using hread

theorem RunOptions.withTopic_gained {bytes : List UInt8} (h : Gains fs fs' place name bytes)
    {directory : Location} {v : Invocation} {o o' : RunOptions} {t : Topic}
    (ht : withTopic fs directory v o t = .ok o') : withTopic fs' directory v o t = .ok o' := by
  unfold withTopic at ht ⊢
  cases t with
  | config =>
      cases hvalue : v.taken? .config with
      | none => simpa only [hvalue] using ht
      | some value =>
          simp only [hvalue] at ht ⊢
          obtain ⟨p, hp, rfl⟩ := eq_of_reading ht
          rw [PathRule.read_gained h (.inr rfl) hp]
          rfl
  | projectDir =>
      cases hvalue : v.taken? .projectDir with
      | none => simpa only [hvalue] using ht
      | some value =>
          simp only [hvalue] at ht ⊢
          obtain ⟨p, hp, rfl⟩ := eq_of_reading ht
          rw [PathRule.read_gained h (.inl rfl) hp]
          rfl
  | parser => cases hname : v.taken? .parser <;> simpa only [hname] using ht
  | _ => exact ht

theorem RunOptions.ofInvocation_gained {bytes : List UInt8} (h : Gains fs fs' place name bytes)
    {directory : Location} {v : Invocation} {o : RunOptions}
    (ho : ofInvocation fs directory v = .ok o) : ofInvocation fs' directory v = .ok o := by
  unfold ofInvocation at ho ⊢
  generalize ({} : RunOptions) = start at ho ⊢
  generalize v.topics = topics at ho ⊢
  induction topics generalizing start with
  | nil => exact ho
  | cons t topics ih =>
      rw [List.foldlM_cons] at ho ⊢
      cases ht : withTopic fs directory v start t with
      | error e => simp [ht, bind, Except.bind] at ho
      | ok next =>
          rw [ht] at ho
          rw [withTopic_gained h ht]
          exact ih next ho

/-- What has found all well finds all well with the new file, if its path is not too long. -/
theorem perform_gained (h : Gains fs fs' place name initialBytes)
    (hshort : byteLength (pathOf (place ++ [name])).text ≤ pathLimit) {directory : Location}
    {o : RunOptions} {searchPaths : List String}
    (hstop : (perform limits fs directory o searchPaths).stop = none) :
    (perform limits fs' directory o searchPaths).stop = none := by
  cases hbase : (baseConfig limits fs (o.project directory) o.config).2 with
  | error s =>
      rw [perform_of_error hbase] at hstop
      cases hstop
  | ok base =>
      obtain ⟨base', hbase', hsame⟩ := baseConfig_gained h hbase
      rw [(perform_of_ok hbase).2] at hstop
      rw [(perform_of_ok hbase').2, hsame]
      exact Config.runWith_gained _ _ h (welcomes_initialBytes _ _) hshort _ hstop

/-! ## Commands -/

theorem execute_init_eq (limits : Limits) (fs : FileSystem) (directory : Location)
    (words : List String) :
    execute limits fs directory ("init" :: words) = executeInit fs directory words := by
  have hwhole : readWords Command.whole.grammar ("init" :: words) = .ok ⟨[], "init" :: words⟩ := rfl
  simp [execute, hwhole, information?, Invocation.topics, Command.ofName?]

/-- Asking for help or for the version comes out well, says one of two texts and changes nothing. -/
theorem information?_eq_some {c : Command} {v : Invocation} {o : Outcome}
    (h : information? fs c v = some o) :
    o.exitCode = 0 ∧ (o.out = c.help ∨ o.out = versionText) ∧ o.after = fs := by
  obtain ⟨t, -, ht⟩ := List.exists_of_findSome?_eq_some h
  cases t <;> cases ht
  · exact ⟨rfl, .inl rfl, rfl⟩
  · exact ⟨rfl, .inr rfl, rfl⟩

theorem information?_isSome (fs fs' : FileSystem) (c : Command) (v : Invocation) :
    (information? fs' c v).isSome = (information? fs c v).isSome := by
  unfold information?
  rw [List.isSome_findSome?, List.isSome_findSome?]
  congr 1
  funext t
  cases t <;> rfl

theorem executeRun_gained (h : Gains fs fs' place name initialBytes)
    (hshort : byteLength (pathOf (place ++ [name])).text ≤ pathLimit) {directory : Location}
    {words : List String} {outcome : Outcome}
    (hrun : executeRun limits fs directory words = .ok outcome) (hexit : outcome.exitCode = 0) :
    ∃ outcome', executeRun limits fs' directory words = .ok outcome' ∧
      outcome'.exitCode = 0 := by
  unfold executeRun at hrun ⊢
  cases hwords : readWords Command.run.grammar words with
  | error e =>
      simp only [hwords, Except.ok.injEq] at hrun
      rw [← hrun] at hexit
      simp [mistake] at hexit
  | ok v =>
      simp only [hwords] at hrun ⊢
      have hsome := information?_isSome fs fs' .run v
      cases hinformation : information? fs .run v with
      | some o =>
          rw [hinformation, Option.isSome_some, Option.isSome_iff_exists] at hsome
          obtain ⟨o', ho'⟩ := hsome
          simp only [ho']
          exact ⟨o', rfl, (information?_eq_some ho').1⟩
      | none =>
          rw [hinformation, Option.isSome_none, Option.isSome_eq_false_iff,
            Option.isNone_iff_eq_none] at hsome
          rw [hinformation] at hrun
          rw [hsome]
          cases hoptions : RunOptions.ofInvocation fs directory v with
          | error e =>
              simp only [hoptions, Except.ok.injEq] at hrun
              rw [← hrun] at hexit
              simp [mistake] at hexit
          | ok o =>
              obtain ⟨setup, hsetup, -⟩ := setUp_packaged fs o.verbose
              obtain ⟨setup', hsetup', -⟩ := setUp_packaged fs' o.verbose
              simp only [hoptions, hsetup, bind, Except.bind] at hrun
              cases hrun
              simp only [RunOptions.ofInvocation_gained h hoptions, hsetup', bind, Except.bind]
              rw [Performance.exitCode_eq_zero_iff] at hexit
              exact ⟨_, rfl, (Performance.exitCode_eq_zero_iff _).mpr
                (perform_gained h hshort hexit)⟩

/-- A run of the command with these words ends well. -/
def Passes (limits : Limits) (fs : FileSystem) (directory : Location) (words : List String) :
    Prop :=
  ∃ outcome, execute limits fs directory ("run" :: words) = .ok outcome ∧ outcome.exitCode = 0

theorem passes_iff {directory : Location} {words : List String} {v : Invocation} {o : RunOptions}
    (hwords : readWords Command.run.grammar words = .ok v)
    (hinformation : information? fs .run v = none)
    (hoptions : RunOptions.ofInvocation fs directory v = .ok o) :
    Passes limits fs directory words ↔
      (perform limits fs directory o v.arguments).stop = none := by
  obtain ⟨setup, hsetup, -⟩ := setUp_packaged fs o.verbose
  rw [Passes, execute_run_eq, executeRun_eq hsetup hwords hinformation hoptions]
  simp only [Except.ok.injEq, exists_eq_left', Performance.exitCode_eq_zero_iff]

theorem Passes.gained (h : Gains fs fs' place name initialBytes)
    (hshort : byteLength (pathOf (place ++ [name])).text ≤ pathLimit) {directory : Location}
    {words : List String} (hpasses : Passes limits fs directory words) :
    Passes limits fs' directory words := by
  obtain ⟨outcome, houtcome, hexit⟩ := hpasses
  rw [execute_run_eq] at houtcome
  obtain ⟨outcome', houtcome', hexit'⟩ := executeRun_gained h hshort houtcome hexit
  exact ⟨outcome', by rw [execute_run_eq, houtcome'], hexit'⟩

end YamlCheck.CommandLine
