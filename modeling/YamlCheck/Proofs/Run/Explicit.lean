import YamlCheck.Proofs.FileSystem.Refusals
import YamlCheck.Proofs.Run.Influence

/-!
# Files given by their own paths

A search of a directory judges a file by the name of its entry, a search path by the name of what it
is resolved to.  The two differ where the entry is a link: a file that its directory offers under
the name of a YAML file is passed over in silence if it is given by a path to a link and has another
name itself.  In all other cases it is checked as it would be with its directory.
-/

namespace YamlCheck

namespace FileSystem

variable {fs : FileSystem}

theorem exists_of_isFile {p : Path} (h : fs.isFile p = .ok true) :
    ∃ loc mode bytes, fs.locate true p = .ok loc ∧ fs.node? loc = some (.file mode bytes) := by
  obtain ⟨mode, bytes, hlook⟩ := lookUp_of_isFile h
  obtain ⟨loc, hloc, hnode⟩ := locate_of_lookUp hlook
  exact ⟨loc, mode, bytes, hloc, hnode⟩

theorem isFile_of_locate {p : Path} {loc : Location} {mode : Mode} {bytes : List UInt8}
    (hloc : fs.locate true p = .ok loc) (hnode : fs.node? loc = some (.file mode bytes)) :
    fs.isFile p = .ok true := by
  simp only [isFile, isKind, lookUp_eq hloc hnode, Node.isFile]

/-- Paths that lead to one location are read alike. -/
theorem read_of_locate {p q : Path} {loc : Location} (hp : fs.locate true p = .ok loc)
    (hq : fs.locate true q = .ok loc) : fs.read p = fs.read q := by
  have hlook : fs.lookUp true p = fs.lookUp true q := by
    simp only [lookUp, bind, Except.bind, hp, hq]
  simp only [read, hlook]

/-! ## Entries of a directory -/

/-- A file that a flat discovery finds is an entry of a directory. -/
theorem directory_of_mem_discover (hfs : fs.WellFormed) {place : Path} {name : String}
    (h : place.child name ∈ (fs.discover place false).files) :
    Path.isPlain name = true ∧ ∃ loc, fs.locate true place = .ok loc := by
  unfold discover at h
  cases hcandidates : fs.candidates place false with
  | error s => simp [hcandidates] at h
  | ok ps =>
      rw [hcandidates] at h
      have hmem := (ofCandidates_sublist fs ps).subset h
      unfold candidates at hcandidates
      simp only [Bool.false_eq_true, if_false] at hcandidates
      cases hlist : fs.list place with
      | error r => simp [hlist] at hcandidates
      | ok names =>
          simp only [hlist, Except.ok.injEq] at hcandidates
          subst hcandidates
          obtain ⟨mode, entries, hlook, rfl⟩ := directory_of_list hlist
          obtain ⟨loc, hloc, -⟩ := locate_of_lookUp hlook
          rw [(Path.sort_perm _).mem_iff, List.map_map, List.mem_map] at hmem
          obtain ⟨e, he, hsame⟩ := hmem
          obtain rfl : e.1 = name := by simpa using congrArg Path.name hsame
          have hentry :=
            (Node.wellFormed_of_mem (entries_wellFormed_of_lookUp hfs hlook) he).1
          simp only [isEntryName, Bool.and_eq_true] at hentry
          rw [Path.isPlain, Bool.and_eq_true]
          exact ⟨hentry.1.1.1, loc, hloc⟩

/-- The way to an entry leads to its directory and from there on by its name. -/
theorem reaches_of_locate_child {place : Path} {name : String} {loc stop : Location}
    (hplace : fs.locate true place = .ok loc)
    (hchild : fs.locate true (place.child name) = .ok stop) :
    Reaches fs linkLimit loc [name] stop := by
  obtain ⟨-, hwalk⟩ := locate_ok hchild
  obtain ⟨mid, hfront, hback⟩ := (reaches_of_walk hwalk).split
  obtain rfl := hfront.unique (reaches_of_walk (locate_ok hplace).2)
  exact hback

theorem nulFree_of_locate {p : Path} {loc : Location} (h : fs.locate true p = .ok loc) :
    ∀ name ∈ p.names, '\x00' ∉ name.toList := by
  simpa using (locate_ok h).1

theorem short_of_isDirectory {p : Path} {b : Bool} (hnul : ∀ name ∈ p.names, '\x00' ∉ name.toList)
    (h : fs.isDirectory p = .ok b) : byteLength p.text ≤ pathLimit := by
  by_contra hlong
  have hfree : (p.names.any fun name => name.toList.contains '\x00') = false := by
    simpa using hnul
  have hlook : fs.lookUp true p = .error .nameTooLong := by
    simp only [lookUp, locate, find, bind, Except.bind, hfree, Nat.lt_of_not_le hlong,
      Bool.false_eq_true, ↓reduceIte]
  simp [isDirectory, isKind, hlook, Refusal.meansAbsent] at h

/-- An entry of a directory leads to the same as the entry of that name by the canonical path of the
directory, if this is not too long. -/
theorem locate_canonical_child {place : Path} {name : String} {loc stop : Location} {b : Bool}
    (hloc : Canonical fs loc) (hplace : fs.locate true place = .ok loc)
    (hchild : fs.locate true (place.child name) = .ok stop)
    (htold : fs.isDirectory ((pathOf loc).child name) = .ok b) :
    fs.locate true ((pathOf loc).child name) = .ok stop := by
  have hreaches := reaches_of_locate_child hplace hchild
  have hnul : ∀ other ∈ ((pathOf loc).child name).names, '\x00' ∉ other.toList := by
    intro other hother
    rcases List.mem_append.mp hother with hother | hother
    · exact hloc.nulFree other hother
    · exact nulFree_of_locate hchild other (List.mem_append_right _ hother)
  refine locate_of_walk hnul (short_of_isDirectory hnul htold) ?_
  exact (hloc.walk_eq true linkLimit [name]).trans hreaches.walk_eq

/-- What an entry leads to has the name of the entry, unless the entry is a link. -/
theorem name_eq_or_link {loc stop : Location} {name : String} {links : Nat}
    (hplain : Path.isPlain name = true) (h : Reaches fs links loc [name] stop) :
    (pathOf stop).name = name ∨ ∃ target, fs.node? (loc ++ [name]) = some (.link target) := by
  cases h with
  | onward hturn hrest =>
      cases hrest
      obtain ⟨rfl, -⟩ := turn_onward hturn hplain
      exact .inl (by simp [pathOf, Path.name])
  | link hturn _ => exact .inr ⟨_, turn_link hturn⟩

/-! ## What is found at a file's own path -/

/-- A regular file is resolved to the path of its location, unless a path on the way is too long. -/
theorem target_of_locate (hfs : fs.WellFormed) {directory : Path} {path : Text.Letters}
    {loc : Location} {mode : Mode} {bytes : List UInt8}
    (hwhole : (Sought.ofLetters path).odd = none)
    (hloc : fs.locate true (directory.join (Sought.ofLetters path).front) = .ok loc)
    (hnode : fs.node? loc = some (.file mode bytes)) :
    (Canonical fs loc ∧ fs.resolve path directory = .ok (pathOf loc) ∧
        fs.target directory path = .file (pathOf loc)) ∨
      ∃ far, fs.target directory path = .nothing (tooLongAt path far) ∧
        pathLimit < byteLength (pathOf far).text := by
  rcases canonical_of_locate hfs hloc with hok | ⟨far, hfar, hlong⟩
  · have hcanonical := canonical_isCanonical hok
    have hresolve := resolve_of_canonical hwhole hok
    have hfile := isFile_of_locate (hcanonical.locate_eq true) hnode
    have hdirectory : fs.isDirectory (pathOf loc) = .ok false := by
      simp only [isDirectory, isKind, lookUp_eq (hcanonical.locate_eq true) hnode,
        Node.isDirectory]
    exact .inl ⟨hcanonical, hresolve, by simp only [target, hresolve, hdirectory, hfile]⟩
  · exact .inr ⟨far, by simp only [target, resolve_of_tooLong hfar], hlong⟩

end FileSystem

namespace Narrative

@[simp] theorem andThen_quiet (a : Narrative) : (a.andThen fun _ => .quiet) = a := by
  cases h : a.stop with
  | some s => exact andThen_of_stop h
  | none =>
      rw [andThen_of_end h]
      cases a
      simp_all [quiet]

end Narrative

namespace Checker

/-- Two files with the same number of documents, of which both are accepted or neither is. -/
def SameVerdict (c : Checker) (fs : FileSystem) (p q : Path) : Prop :=
  (c.passage fs p).documents = (c.passage fs q).documents ∧
    ((c.passage fs p).stop = none ↔ (c.passage fs q).stop = none)

/-- A backend for a dialect finds in the same bytes the same documents, at whatever path. -/
theorem sameVerdict_of_read {limits : Yaml.Limits} {d : Yaml.Dialect}
    {duplicates : Yaml.Duplicates} {fs : FileSystem} {p q : Path} (h : fs.read p = fs.read q) :
    SameVerdict ⟨.ofDialect limits d, duplicates⟩ fs p q := by
  unfold SameVerdict passage
  rw [h]
  cases fs.read q with
  | error r => exact ⟨rfl, by simp⟩
  | ok bytes => exact ⟨rfl, by simp [Backend.ofDialect]⟩

end Checker

namespace Config

open FileSystem

variable {fs : FileSystem}

theorem run_single (config : Config) (limits : Yaml.Limits) (fs : FileSystem) (directory : Path)
    (path : Text.Letters) :
    { config with searchPaths := [path] }.run limits fs directory =
      Checker.checkTarget ⟨.ofDialect limits config.parser, config.duplicates⟩ fs
        config.searchRecursive (fs.target directory path) := by
  simp only [run, runWith, Checker.checkAll_eq, List.map_cons, List.map_nil, Narrative.inOrder,
    Narrative.andThen_quiet]
  rfl

/-- A regular file that a flat discovery finds in a directory is given by a search path of its own.
Then the run starts this one file at its canonical path, and reads and finds there what a run over
the directory does.  But if the entry is a link, and what it leads to has not the name of a YAML
file, then the run passes over it without a word.  The only other way out is that a path on the way
is too long, and then the run says so. -/
theorem run_of_discovered (config : Config) (limits : Yaml.Limits) (hfs : fs.WellFormed)
    {directory place : Path} {name : String} {path : Text.Letters}
    (hfound : place.child name ∈ (fs.discover place false).files)
    (hfile : fs.isFile (place.child name) = .ok true)
    (hwhole : (Sought.ofLetters path).odd = none)
    (hpath : directory.join (Sought.ofLetters path).front = place.child name) :
    let c : Checker := ⟨.ofDialect limits config.parser, config.duplicates⟩
    let run := { config with searchPaths := [path] }.run limits fs directory
    (∃ file, fs.resolve path directory = .ok file ∧ isYamlName file.name = true ∧
        run = c.checkFile fs file ∧ fs.read file = fs.read (place.child name) ∧
        c.SameVerdict fs file (place.child name) ∧
        ∀ searched top, directory.join (Sought.ofLetters searched).front = place →
          fs.resolve searched directory = .ok top →
          top.child name ∈ (fs.discover top config.searchRecursive).files →
            fs.read file = fs.read (top.child name) ∧ c.SameVerdict fs file (top.child name)) ∨
      (∃ file loc target, fs.resolve path directory = .ok file ∧ isYamlName file.name = false ∧
        fs.locate true place = .ok loc ∧ fs.node? (loc ++ [name]) = some (.link target) ∧
        run = .quiet) ∨
      ∃ far, run = .stopped (tooLongAt path far) ∧ pathLimit < byteLength (pathOf far).text := by
  intro c run
  obtain ⟨stop, mode, bytes, hstop, hnode⟩ := exists_of_isFile hfile
  obtain ⟨hplain, loc, hloc⟩ := directory_of_mem_discover hfs hfound
  have hrun : run = c.checkTarget fs config.searchRecursive (fs.target directory path) :=
    config.run_single limits fs directory path
  have hname : isYamlName name = true := by
    unfold discover at hfound
    split at hfound
    · simpa using Discovered.isYamlName_of_mem hfound
    · simp at hfound
  rcases target_of_locate hfs hwhole (hpath ▸ hstop) hnode with
    ⟨hcanonical, hresolve, htarget⟩ | ⟨far, htarget, hlong⟩
  case inr => exact .inr (.inr ⟨far, by rw [hrun, htarget, Checker.checkTarget], hlong⟩)
  have hfileplace := hcanonical.locate_eq true
  cases hyaml : isYamlName (pathOf stop).name with
  | true =>
      have hread := read_of_locate hfileplace hstop
      refine .inl ⟨pathOf stop, hresolve, hyaml, ?_, hread, Checker.sameVerdict_of_read hread, ?_⟩
      · rw [hrun, htarget, Checker.checkTarget, if_pos hyaml]
      · intro searched top hsearched htop hmem
        obtain ⟨place', rfl, hplace', -, hcanonically⟩ := resolve_eq_ok htop
        rw [hsearched] at hcanonically
        obtain rfl : place' = loc := by
          rcases canonical_of_locate hfs hloc with hok | ⟨far, hfar, -⟩
          · exact Except.ok.inj (hcanonically.symm.trans hok)
          · rw [hcanonically] at hfar
            cases hfar
        have htold : fs.isDirectory ((pathOf place').child name) = .ok false := by
          unfold discover at hmem
          split at hmem
          · exact (isYaml_eq_true (Discovered.isYaml_of_mem hmem)).1
          · simp at hmem
        have hread' := read_of_locate hfileplace
          (locate_canonical_child hplace' hloc hstop htold)
        exact ⟨hread', Checker.sameVerdict_of_read hread'⟩
  | false =>
      rcases name_eq_or_link hplain (reaches_of_locate_child hloc hstop) with
        hsame | ⟨target, hlink⟩
      · rw [hsame, hname] at hyaml
        cases hyaml
      · refine .inr (.inl ⟨pathOf stop, loc, target, hresolve, hyaml, hloc, hlink, ?_⟩)
        rw [hrun, htarget, Checker.checkTarget, if_neg (by simp [hyaml])]

end Config

/-- A directory with a link to a YAML file and a link to a file with another name. -/
def FileSystem.linkedFiles : FileSystem where
  root := .directory .ofDirectory
    [("conf", .directory .ofDirectory
      [("a.yaml", .link "b.yml"), ("b.yml", .file .ofFile "a: 1\n---\nb: 2\n".toUTF8.toList),
        ("c.yaml", .link "data.txt"), ("data.txt", .file .ofFile "a: 1\n".toUTF8.toList)])]

theorem Config.run_of_discovered_link :
    FileSystem.linkedFiles.WellFormed ∧
      (Path.mk .slash ["conf"]).child "a.yaml" ∈
        (FileSystem.linkedFiles.discover ⟨.slash, ["conf"]⟩ false).files ∧
      FileSystem.linkedFiles.isFile ((Path.mk .slash ["conf"]).child "a.yaml") = .ok true ∧
      ∃ file, FileSystem.linkedFiles.resolve "conf/a.yaml" ⟨.slash, []⟩ = .ok file ∧
        ({ searchPaths := ["conf/a.yaml"] } : Config).run .usual .linkedFiles ⟨.slash, []⟩ =
          Checker.checkFile ⟨.ofDialect .usual .classic, .refused⟩ .linkedFiles file := by
  have hfs : FileSystem.linkedFiles.WellFormed := by decide +kernel
  have hfound : (Path.mk .slash ["conf"]).child "a.yaml" ∈
      (FileSystem.linkedFiles.discover ⟨.slash, ["conf"]⟩ false).files := by decide +kernel
  have hfile : FileSystem.linkedFiles.isFile ((Path.mk .slash ["conf"]).child "a.yaml") =
      .ok true := by rfl
  have hsought : Sought.ofLetters "conf/a.yaml" = { front := .ofText "conf/a.yaml" } :=
    Sought.ofLetters_ofText _
  have hpath : (Path.mk .slash []).join (Sought.ofLetters "conf/a.yaml").front =
      (Path.mk .slash ["conf"]).child "a.yaml" := by
    rw [hsought]
    decide +kernel
  have hcanonical : FileSystem.linkedFiles.canonical
      ((Path.mk .slash []).join (Sought.ofLetters "conf/a.yaml").front) =
        .ok ["conf", "b.yml"] := by
    rw [hpath]
    decide +kernel
  have hwhole : (Sought.ofLetters "conf/a.yaml").odd = none := by rw [hsought]
  have hresolve := FileSystem.resolve_of_canonical hwhole hcanonical
  refine ⟨hfs, hfound, hfile, ?_⟩
  rcases run_of_discovered {} .usual hfs hfound hfile hwhole hpath with
    ⟨file, hfile, -, hrun, -⟩ | ⟨file, loc, target, hfile, hname, -⟩ | ⟨far, hstop, -⟩
  · exact ⟨file, hfile, hrun⟩
  · cases hresolve.symm.trans hfile
    exact absurd hname (by decide +kernel)
  · have hnone : (({ searchPaths := ["conf/a.yaml"] } : Config).run .usual .linkedFiles
        ⟨.slash, []⟩).stop.isNone = true := by decide +kernel
    rw [hstop] at hnone
    cases hnone

/-- A file that its directory offers may be passed over if it is given by its own path. -/
theorem Config.linkedFiles_passes_over :
    ¬ ∀ (config : Config) (fs : FileSystem) (directory place : Path) (name path : String),
      fs.WellFormed → place.child name ∈ (fs.discover place false).files →
        fs.isFile (place.child name) = .ok true →
          directory.join (Path.ofText path) = place.child name →
            ∃ file, ({ config with searchPaths := [↑path] }.run .usual fs
              directory).reports.filterMap Report.startedFile? = [file] := by
  intro h
  obtain ⟨file, hfile⟩ := h {} .linkedFiles ⟨.slash, []⟩ ⟨.slash, ["conf"]⟩ "c.yaml" "conf/c.yaml"
    (by decide +kernel) (by decide +kernel) rfl (by decide +kernel)
  have hnone : (({ searchPaths := ["conf/c.yaml"] } : Config).run .usual .linkedFiles
      ⟨.slash, []⟩).reports = [] := by decide +kernel
  have hstarted := congrArg (List.filterMap Report.startedFile?) hnone
  rw [hfile] at hstarted
  cases hstarted

end YamlCheck
