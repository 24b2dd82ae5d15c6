import YamlCheck.Proofs.CommandLine.Initial

/-!
# Making the initial configuration file

The command makes the file only where nothing is, and otherwise changes nothing.  Once it is made,
every run that has passed before passes again: the file is no hindrance where it is searched, and
the defaults that it says are those that a run without it starts from.
-/

namespace YamlCheck.CommandLine

open YamlCheck.Text YamlCheck.Yaml YamlCheck.FileSystem YamlCheck.Path

variable {limits : Limits} {fs fs' : FileSystem} {place : Location} {name : String}

/-! ## What the command does -/

/-- The path that the file is made at. -/
def initialPath (directory : Location) : Path :=
  (pathOf directory).child Config.defaultFileName

/-- What the command says when it has made the file. -/
def createdText : String := "Created '.yamlvalidator.yaml'.\n"

section Making

variable {directory : Location} {words : List String} {outcome : Outcome}

theorem mistake_quiet (c : Command) (e : UsageError) :
    (mistake fs c e []).after = fs ∧ (mistake fs c e []).out ≠ createdText :=
  ⟨rfl, by simp [mistake, createdText]⟩

theorem writeInitial_cases (h : writeInitial fs directory = .ok outcome) :
    outcome.after = fs ∧ outcome.out ≠ createdText ∨
      fs.isThere (initialPath directory) = .ok false ∧
        fs.write (initialPath directory) initialBytes = .ok outcome.after := by
  have hname : (initialPath directory).name = Config.defaultFileName := Path.name_child ..
  unfold writeInitial at h
  rw [← initialPath, ← initialBytes] at h
  simp only [hname] at h
  cases hthere : fs.isThere (initialPath directory) with
  | error i => simp [hthere, bind, Except.bind] at h
  | ok found =>
      simp only [hthere, bind, Except.bind] at h
      cases found with
      | true =>
          have hsaid : "'" ++ Config.defaultFileName ++ "'" ++ " already exists. Nothing to do.\n" ≠
              createdText := by decide
          cases h
          exact .inl ⟨rfl, hsaid⟩
      | false =>
          cases hwrite : fs.write (initialPath directory) initialBytes with
          | ok after =>
              simp only [hwrite, Bool.false_eq_true, ↓reduceIte] at h
              cases h
              exact .inr ⟨rfl, rfl⟩
          | error r =>
              simp only [hwrite, Bool.false_eq_true, ↓reduceIte] at h
              split at h
              · cases h
                exact .inl ⟨rfl, by simp [createdText]⟩
              · cases h

/-- The command either leaves everything as it is and does not say that it has made the file, or it
writes the file where nothing is. -/
theorem executeInit_cases (h : executeInit fs directory words = .ok outcome) :
    outcome.after = fs ∧ outcome.out ≠ createdText ∨
      fs.isThere (initialPath directory) = .ok false ∧
        fs.write (initialPath directory) initialBytes = .ok outcome.after := by
  unfold executeInit at h
  split at h
  · cases h
    exact .inl (mistake_quiet _ _)
  split at h
  · rename_i o hinformation
    cases h
    obtain ⟨-, hout, hafter⟩ := information?_eq_some hinformation
    refine .inl ⟨hafter, ?_⟩
    rcases hout with hout | hout <;> rw [hout] <;> decide
  split at h
  · exact writeInitial_cases h
  · cases h
    exact .inl (mistake_quiet _ _)

/-- Where there is something, the command has nothing to do. -/
theorem executeInit_of_isThere (h : fs.isThere (initialPath directory) = .ok true)
    (words : List String) :
    ∃ outcome, executeInit fs directory words = .ok outcome ∧ outcome.after = fs := by
  unfold executeInit
  split
  · exact ⟨_, rfl, rfl⟩
  split
  · rename_i o hinformation
    exact ⟨o, rfl, (information?_eq_some hinformation).2.2⟩
  split
  · unfold writeInitial
    rw [← initialPath]
    simp only [h, bind, Except.bind]
    exact ⟨_, rfl, rfl⟩
  · exact ⟨_, rfl, rfl⟩

/-- The last name that the file is asked for by is its own. -/
theorem writable_initialPath (directory : Location) :
    ∀ last, (initialPath directory).names.getLast? = some last → Writable last := by
  intro last hlast
  have hnames : (initialPath directory).names = directory ++ [Config.defaultFileName] := rfl
  rw [hnames, List.getLast?_concat, Option.some.injEq] at hlast
  subst hlast
  exact ⟨by decide, by decide⟩

/-- The command that makes the file where nothing is. -/
theorem gains_of_execute (hfs : fs.WellFormed) (hnul : fs.NulFree)
    (h : execute limits fs directory ("init" :: words) = .ok outcome)
    (hcreated : outcome.out = createdText) :
    ∃ place name, fs.find true (initialPath directory) = .ok (.vacant place name) ∧
      outcome.after = fs.put place name (.file .ofFile initialBytes) ∧
      Gains fs outcome.after place name initialBytes := by
  rw [execute_init_eq] at h
  rcases executeInit_cases h with ⟨-, hout⟩ | ⟨habsent, hwrite⟩
  · exact absurd hcreated hout
  · exact gains_of_write hfs hnul (writable_initialPath directory) habsent hwrite

/-- If no link is in the way, the file is where it is asked for, and its path is not too long. -/
theorem short_of_find (hdirectory : Canonical fs directory)
    (hlink : ∀ target, fs.node? (directory ++ [Config.defaultFileName]) ≠ some (.link target))
    (hfind : fs.find true (initialPath directory) = .ok (.vacant place name)) :
    byteLength (pathOf (place ++ [name])).text ≤ pathLimit := by
  have hnames : (initialPath directory).names = directory ++ [Config.defaultFileName] := rfl
  unfold find at hfind
  split at hfind
  · cases hfind
  split at hfind
  · cases hfind
  rename_i hshort
  rw [hnames, hdirectory.walk_eq, walk_cons] at hfind
  cases hturn : fs.turn directory Config.defaultFileName with
  | onward next => simp [hturn, walk_nil] at hfind
  | link target => exact absurd (turn_link hturn) (hlink target)
  | refused r => simp [hturn] at hfind
  | vacant =>
      simp only [hturn, List.isEmpty_nil, ↓reduceIte] at hfind
      cases hfind
      exact Nat.le_of_not_lt hshort

/-- When the command has made the file, whatever passed before passes after, in any directory and
with any words, if the path of the file is not too long, as it may be only behind a link; and the
command makes no further difference.  Where there is something already, it makes none at all. -/
theorem execute_init_keeps_passing (hfs : fs.WellFormed) (hnul : fs.NulFree)
    (h : execute limits fs directory ("init" :: words) = .ok outcome) :
    (fs.isThere (initialPath directory) = .ok true → outcome.after = fs) ∧
      (outcome.out = createdText →
        (∀ more, ∃ again, execute limits outcome.after directory ("init" :: more) = .ok again ∧
          again.after = outcome.after) ∧
        ∃ place name, outcome.after = fs.put place name (.file .ofFile initialBytes) ∧
          fs.node? (place ++ [name]) = none ∧
          (Canonical fs directory →
            (∀ target, fs.node? (directory ++ [Config.defaultFileName]) ≠ some (.link target)) →
              byteLength (pathOf (place ++ [name])).text ≤ pathLimit) ∧
          (byteLength (pathOf (place ++ [name])).text ≤ pathLimit →
            ∀ elsewhere others, Passes limits fs elsewhere others →
              Passes limits outcome.after elsewhere others)) := by
  constructor
  · intro hthere
    obtain ⟨found, hfound, hafter⟩ := executeInit_of_isThere hthere words
    rw [execute_init_eq, hfound] at h
    cases h
    exact hafter
  · intro hcreated
    obtain ⟨place, name, hfind, hafter, hgains⟩ := gains_of_execute hfs hnul h hcreated
    refine ⟨fun more => ?_, place, name, hafter, hgains.vacant, ?_, ?_⟩
    · have hthere : outcome.after.isThere (initialPath directory) = .ok true := by
        simp only [isThere, isKind, hgains.lookUp_of_vacant hfind]
      rw [execute_init_eq]
      exact executeInit_of_isThere hthere more
    · intro hdirectory hlink
      exact short_of_find hdirectory hlink hfind
    · intro hshort elsewhere others hpasses
      exact hpasses.gained hgains hshort

end Making

/-- A project with one document, a link to it and no configuration. -/
def plainProject : FileSystem where
  root := .directory .ofDirectory
    [("work", .directory .ofDirectory
      [("a.yml", .file .ofFile "- 1\n".toUTF8.toList), ("b.txt", .link "a.yml")])]

def configuredPlainProject : FileSystem :=
  plainProject.put ["work"] Config.defaultFileName (.file .ofFile initialBytes)

/-- The directory that the file is made in is one of those that are searched. -/
theorem plainProject_keeps_passing :
    execute .usual plainProject ["work"] ["init"] =
        .ok { exitCode := 0, out := createdText, after := configuredPlainProject } ∧
      Passes .usual plainProject ["work"] [".", "b.txt", "--parser", "ruamel"] ∧
      Passes .usual configuredPlainProject ["work"] [".", "b.txt", "--parser", "ruamel"] := by
  have hfs : plainProject.WellFormed := by decide +kernel
  have hnul : plainProject.NulFree := by
    intro loc target hlink
    have hplaces : plainProject.root.linkPlaces = [["work", "b.txt"]] := by decide +kernel
    have hloc := Node.mem_linkPlaces hlink
    rw [hplaces, List.mem_singleton] at hloc
    subst hloc
    obtain rfl : "a.yml" = target := Node.link.inj (Option.some.inj hlink)
    decide
  have hinit : execute .usual plainProject ["work"] ["init"] =
      .ok { exitCode := 0, out := createdText, after := configuredPlainProject } := rfl
  have hwords : readWords Command.run.grammar [".", "b.txt", "--parser", "ruamel"] =
      .ok ⟨[.taken .parser "ruamel"], [".", "b.txt"]⟩ := rfl
  have hinformation : information? plainProject .run
      ⟨[.taken .parser "ruamel"], [".", "b.txt"]⟩ = none := rfl
  have hoptions : RunOptions.ofInvocation plainProject ["work"]
      ⟨[.taken .parser "ruamel"], [".", "b.txt"]⟩ = .ok { parser := some .modern } := rfl
  have hbefore : Passes .usual plainProject ["work"] [".", "b.txt", "--parser", "ruamel"] := by
    rw [passes_iff hwords hinformation hoptions, ← Option.isNone_iff_eq_none]
    decide +kernel
  have hwork : Canonical plainProject ["work"] :=
    Canonical.nil.snoc (n := (plainProject.node? ["work"]).getD plainProject.root) (by decide) rfl
      (by intro target hlink; cases hlink)
  obtain ⟨-, place, name, hafter, -, hshort, hpasses⟩ :=
    (execute_init_keeps_passing hfs hnul hinit).2 rfl
  refine ⟨hinit, hbefore, hpasses (hshort hwork ?_) _ _ hbefore⟩
  intro target hlink
  cases hlink

/-! ## A file behind a link -/

/-- A path is no option. -/
theorem readWords_path {loc : Location} :
    readWords Command.run.grammar [(pathOf loc).text] = .ok ⟨[], [(pathOf loc).text]⟩ := by
  have hslash : ∃ rest, (pathOf loc).text.toList = '/' :: rest := by
    rw [show (pathOf loc).text = "/" ++ "/".intercalate loc from rfl, String.toList_append]
    exact ⟨_, rfl⟩
  obtain ⟨rest, hslash⟩ := hslash
  have hoption : isOption (pathOf loc).text = false := by
    unfold isOption
    rw [hslash]
    rfl
  have hdashes : ((pathOf loc).text == "--") = false := by
    rw [beq_eq_false_iff_ne]
    intro heq
    rw [heq] at hslash
    cases hslash
  simp [readWords, hdashes, hoption, Command.grammar, bind, Except.bind]
  rfl

/-- A search of one directory by its path passes if the configuration is no hindrance and all is
well in the directory. -/
theorem passes_path_iff {directory loc : Location} {base : Option Config}
    (hbase : (baseConfig limits fs (pathOf directory) none).2 = .ok base) :
    Passes limits fs directory [(pathOf loc).text] ↔
      Checker.targetStop
        ⟨.ofDialect limits (base.getD {}).parser, (base.getD {}).duplicates⟩ fs
        (base.getD {}).searchRecursive (fs.target (pathOf directory) (pathOf loc).text) = none := by
  have hinformation : information? fs .run ⟨[], [(pathOf loc).text]⟩ = none := rfl
  have hoptions : RunOptions.ofInvocation fs directory ⟨[], [(pathOf loc).text]⟩ = .ok {} := rfl
  have hperform : (perform limits fs directory {} [(pathOf loc).text]).stop =
      ((RunOptions.laidOver {} [(pathOf loc).text] (base.getD {})).run limits fs
        (pathOf directory)).stop := (perform_of_ok hbase).2
  rw [passes_iff readWords_path hinformation hoptions, hperform, ← Checker.checkTarget_stop]
  exact Eq.congr_left (congrArg Narrative.stop (Config.run_single (base.getD {}) limits fs _ _))

/-- Without a configuration a search of an empty directory passes. -/
theorem passes_of_empty (hfs : fs.WellFormed) {directory loc : Location} {mode : Mode}
    (habsent : fs.isFile (initialPath directory) = .ok false) (hloc : Canonical fs loc)
    (hnode : fs.node? loc = some (.directory mode [])) (hread : mode.read = true) :
    Passes limits fs directory [(pathOf loc).text] := by
  have hlook := FileSystem.lookUp_eq (hloc.locate_eq true) hnode
  rw [passes_path_iff (StartsFrom.nothing habsent).baseConfig_eq,
    Checker.targetStop_target_eq_none_iff hfs]
  refine ⟨_, resolve_text hfs hloc _, .inl ⟨?_, ?_⟩⟩
  · simp only [isDirectory, isKind, hlook, Node.isDirectory]
  · rintro d (rfl | ⟨hrecursive, -⟩)
    · exact ⟨[], by simp [list_eq hlook, hread], by simp⟩
    · cases hrecursive

/-- A search of the directory with the file does not pass if the path of the file is too long. -/
theorem not_passes_of_tooLong (h : Gains fs fs' place name initialBytes)
    (hlong : pathLimit < byteLength (pathOf (place ++ [name])).text) (hplace : Canonical fs place)
    {directory : Location} (habsent : fs.isFile (initialPath directory) = .ok false) :
    ¬ Passes limits fs' directory [(pathOf place).text] := by
  obtain ⟨base', hbase', -⟩ := baseConfig_gained h (StartsFrom.nothing habsent).baseConfig_eq
  rw [passes_path_iff hbase']
  exact Checker.targetStop_of_tooLong h hlong hplace _ (resolve_text h.before hplace _)

/-- Without further words the command makes the file where nothing is. -/
theorem execute_init_of_absent {directory : Location}
    (habsent : fs.isThere (initialPath directory) = .ok false)
    (hwrite : fs.write (initialPath directory) initialBytes = .ok fs') :
    execute limits fs directory ["init"] =
      .ok { exitCode := 0, out := createdText, after := fs' } := by
  have hwords : readWords Command.init.grammar [] = .ok ⟨[], []⟩ := rfl
  have hinformation : information? fs .init ⟨[], []⟩ = none := rfl
  have hname : (initialPath directory).name = Config.defaultFileName := Path.name_child ..
  have hsaid : "Created " ++ ("'" ++ Config.defaultFileName ++ "'") ++ ".\n" = createdText := by
    decide
  rw [execute_init_eq, executeInit, hwords]
  simp only [hinformation, List.isEmpty_nil, ↓reduceIte]
  unfold writeInitial
  rw [← initialPath, ← initialBytes]
  simp only [hname, hsaid, habsent, hwrite, bind, Except.bind, Bool.false_eq_true, ↓reduceIte]
  rfl

/-- Directories inside each other, and a link to a vacant entry of the innermost one. -/
def farLinkTree : FileSystem where
  root := .directory .ofDirectory
    [(longName, nested 14),
      (Config.defaultFileName, .link ("/".intercalate (List.replicate 16 longName)))]

theorem farLinkTree_wellFormed : farLinkTree.WellFormed := by
  have hother : longName ≠ Config.defaultFileName := longName_ne (by decide)
  have hname : isEntryName Config.defaultFileName = true := by decide +kernel
  simp [WellFormed, farLinkTree, Node.wellFormed, Node.wellFormedIn, isEntryName_longName,
    nested_wellFormed, hname, hother]

theorem linkPlaces_nested (depth : Nat) : (nested depth).linkPlaces = [] := by
  induction depth with
  | zero => rfl
  | succ depth ih => simp [nested, Node.linkPlaces, Node.linkPlacesIn, ih]

theorem farLinkTree_nulFree : farLinkTree.NulFree := by
  intro loc target hlink
  have hother : longName ≠ Config.defaultFileName := longName_ne (by decide)
  have hplaces : farLinkTree.root.linkPlaces = [[Config.defaultFileName]] := by
    simp [farLinkTree, Node.linkPlaces, Node.linkPlacesIn, linkPlaces_nested]
  have hloc := Node.mem_linkPlaces hlink
  rw [hplaces, List.mem_singleton] at hloc
  subst hloc
  have hnode : farLinkTree.node? [Config.defaultFileName] =
      some (.link ("/".intercalate (List.replicate 16 longName))) := by
    simp [node?, farLinkTree, Node.get?, Node.entryNamed?, hother]
  obtain rfl := Node.link.inj (Option.some.inj (hnode.symm.trans hlink))
  rw [String.toList_intercalate, List.map_replicate, toList_longName]
  refine nulFree_intercalate fun w hw => ?_
  rw [List.eq_of_mem_replicate hw]
  simp

theorem node?_farLinkTree {depth : Nat} (h : depth ≤ 14) :
    farLinkTree.node? (List.replicate (depth + 1) longName) = some (nested (14 - depth)) := by
  have hnested := get?_nested depth (14 - depth)
  rw [Nat.add_sub_cancel' h] at hnested
  rw [node?, List.replicate_succ]
  simp [farLinkTree, Node.get?, Node.entryNamed?, hnested]

theorem directory_farLinkTree {depth : Nat} (h : depth ≤ 15) :
    ∃ entries, farLinkTree.node? (List.replicate depth longName) =
      some (.directory .ofDirectory entries) := by
  cases depth with
  | zero => exact ⟨_, rfl⟩
  | succ depth =>
      obtain ⟨entries, hentries⟩ := nested_eq (14 - depth)
      exact ⟨entries, by rw [node?_farLinkTree (by omega), hentries]⟩

theorem turn_farLinkTree {depth : Nat} (h : depth ≤ 14) :
    farLinkTree.turn (List.replicate depth longName) longName =
      .onward (List.replicate (depth + 1) longName) := by
  obtain ⟨entries, hhere⟩ := directory_farLinkTree (show depth ≤ 15 by omega)
  exact turn_nested hhere (node?_farLinkTree h)

theorem byteLength_replicate {depth : Nat} (h : 0 < depth) :
    byteLength (pathOf (List.replicate depth longName)).text = depth * 256 := by
  have hne : List.replicate depth longName ≠ [] := by
    simp only [ne_eq, List.replicate_eq_nil_iff]
    omega
  rw [byteLength_pathOf hne, List.map_replicate, List.sum_replicate_nat, byteLength_longName]
  rfl

theorem canonical_farLinkTree {depth : Nat} (h : depth ≤ 15) :
    Canonical farLinkTree (List.replicate depth longName) := by
  induction depth with
  | zero => exact Canonical.nil
  | succ depth ih =>
      have hfront := ih (Nat.le_of_succ_le h)
      obtain ⟨entries, hnode⟩ := directory_farLinkTree h
      have hturn := turn_farLinkTree (Nat.le_of_succ_le_succ h)
      have hlength := byteLength_replicate (Nat.zero_lt_succ depth)
      rw [List.replicate_succ'] at hnode hturn hlength ⊢
      have hfree : '\x00' ∉ longName.toList := by simp [toList_longName]
      have hlook := hfront.lookUp_eq hfree (.inl hturn) hnode
      rw [hlength, if_neg (by unfold pathLimit; omega)] at hlook
      exact hfront.snoc isPlain_longName hlook (by simp)

theorem node?_innermost :
    farLinkTree.node? (List.replicate 15 longName) = some (.directory .ofDirectory []) := by
  have hnode := node?_farLinkTree (le_refl 14)
  rw [Nat.sub_self, nested] at hnode
  exact hnode

theorem turn_vacant_farLinkTree :
    farLinkTree.turn (List.replicate 15 longName) longName = .vacant := by
  have hnode := node?_innermost
  have hsearch : Mode.ofDirectory.search = true := rfl
  rw [turn_plain hnode isPlain_longName, node?_snoc hnode]
  simp [hsearch, byteLength_longName, Node.entryNamed?]

/-- The link leads to the vacant entry. -/
theorem find_farLinkTree :
    farLinkTree.find true (initialPath []) =
      .ok (.vacant (List.replicate 15 longName) longName) := by
  have hother : longName ≠ Config.defaultFileName := longName_ne (by decide)
  have hturn : farLinkTree.turn [] Config.defaultFileName =
      .link ("/".intercalate (List.replicate 16 longName)) := by
    obtain ⟨entries, hroot⟩ := directory_farLinkTree (Nat.zero_le 15)
    have hnode : farLinkTree.node? ([] ++ [Config.defaultFileName]) =
        some (.link ("/".intercalate (List.replicate 16 longName))) := by
      simp [node?, farLinkTree, Node.get?, Node.entryNamed?, hother]
    have hsearch : Mode.ofDirectory.search = true := rfl
    have hshort : ¬ nameLimit < byteLength Config.defaultFileName := by decide
    rw [List.replicate_zero] at hroot
    rw [turn_plain hroot (by decide), hnode]
    simp [hsearch, hshort]
  have hpieces : allPieces ("/".intercalate (List.replicate 16 longName)).toList =
      List.replicate 15 longName ++ [longName] := by
    have hslash : ∀ other ∈ List.replicate 16 longName, '/' ∉ other.toList := by
      intro other hmem
      rw [List.eq_of_mem_replicate hmem, toList_longName]
      simp
    have hsnoc : List.replicate 16 longName = List.replicate 15 longName ++ [longName] :=
      List.replicate_succ'
    rw [← hsnoc]
    exact allPieces_intercalate hslash
  have hstart : ∀ target, startOf [] target = [] := by
    intro target
    unfold startOf
    split <;> rfl
  have hnames : (initialPath []).names = [Config.defaultFileName] := rfl
  have hfree : ([Config.defaultFileName].any fun name => name.toList.contains '\x00') = false := by
    decide
  have hlength : ¬ pathLimit < byteLength (initialPath []).text := by decide +kernel
  have henter : farLinkTree.enter true (39 + 1) [] (List.replicate 15 longName ++ [longName]) =
      .ok (.vacant (List.replicate 15 longName) longName) := by
    rw [enter, (canonical_farLinkTree (le_refl 15)).walk_eq, walk_cons, turn_vacant_farLinkTree]
    simp only [List.isEmpty_nil, ↓reduceIte]
  simp only [find, hfree, hlength, Bool.false_eq_true, ↓reduceIte, hnames, walk_cons, hturn,
    List.isEmpty_nil, Bool.not_true, Bool.and_false, List.append_nil, hstart, hpieces]
  exact henter

/-- With the file behind the link. -/
def farLinkTreeMade : FileSystem :=
  farLinkTree.put (List.replicate 15 longName) longName (.file .ofFile initialBytes)

theorem execute_farLinkTree :
    execute .usual farLinkTree [] ["init"] =
      .ok { exitCode := 0, out := createdText, after := farLinkTreeMade } := by
  exact execute_init_of_absent (isKind_of_vacant _ find_farLinkTree)
    (write_of_vacant initialBytes find_farLinkTree node?_innermost rfl)

theorem passes_farLinkTree :
    Passes .usual farLinkTree [] [(pathOf (List.replicate 15 longName)).text] :=
  passes_of_empty farLinkTree_wellFormed (isKind_of_vacant Node.isFile find_farLinkTree)
    (canonical_farLinkTree (le_refl 15)) node?_innermost rfl

/-- The file can be made where its own path is too long, and then the directory that it is in can
no longer be searched. -/
theorem execute_init_can_disturb :
    ¬ ∀ (fs : FileSystem) (directory : Location) (words : List String) (outcome : Outcome),
      fs.WellFormed → fs.NulFree → execute .usual fs directory ("init" :: words) = .ok outcome →
        outcome.out = createdText →
          ∀ others, Passes .usual fs directory others →
            Passes .usual outcome.after directory others := by
  intro h
  have hafter := h farLinkTree [] [] _ farLinkTree_wellFormed farLinkTree_nulFree
    execute_farLinkTree rfl _ passes_farLinkTree
  have hgains : Gains farLinkTree farLinkTreeMade _ _ initialBytes :=
    gains_put farLinkTree_wellFormed node?_innermost rfl rfl isEntryName_longName initialBytes
  have hlong : pathLimit < byteLength (pathOf (List.replicate 15 longName ++ [longName])).text := by
    rw [← List.replicate_succ', byteLength_replicate (Nat.zero_lt_succ 15)]
    decide
  exact not_passes_of_tooLong hgains hlong (canonical_farLinkTree (le_refl 15))
    (isKind_of_vacant Node.isFile find_farLinkTree) hafter

end YamlCheck.CommandLine
