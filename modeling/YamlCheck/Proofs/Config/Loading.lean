import YamlCheck.Config.File
import YamlCheck.Proofs.FileSystem.Refusals
import YamlCheck.Proofs.Yaml.Built
import YamlCheck.Proofs.Yaml.Documents

/-!
# How the loading of a configuration ends

A configuration is loaded, or its file is at fault and a failure says so.  But not all that can be
wrong with a file is reported that way: a path that is out of reach, bytes that are no text, and
values that are none of their type end the loading with an error as it is.  Those errors come from
parts of the file that can be named.
-/

namespace YamlCheck

open YamlCheck.Text YamlCheck.Yaml

namespace Yaml

/-! ## Texts that hold one document -/

/-- What keeps the only document of a source from being loaded and is no complaint: it is met while
the source is read, at a collection of the document that lies in too many others, or at a node of
the document. -/
inductive SingleFails (limits : Limits) (src : Source) : LoadError → Prop
  | reading {e : LoadError} (fails : ScanFailure src e) : SingleFails limits src e
  | nesting (overfull : (Parser.start .classic src).Overfull limits) :
      SingleFails limits src (.breakdown (.tooDeep .composing))
  | building {e : LoadError} {g : Graph} {p : Parser}
      (read : (Parse.single? limits).run (Parser.start .classic src) = .ok (some g, p))
      (fails : g.Fails (.classic ⟨limits, .classic⟩ .allowed) e) : SingleFails limits src e

theorem ParseFailure.scanFailure {src : Source} {e : LoadError}
    (h : ParseFailure .classic src e) : ScanFailure src e := by
  rcases h with h | ⟨hmodern, -⟩
  · exact h
  · cases hmodern

theorem fails_of_loadSingle {limits : Limits} {src : Source} {e : LoadError}
    (h : loadSingle limits src = .error e) : e.Among (SingleFails limits src) := by
  have hsingle : Composes limits .classic src (Parser.start .classic src) (Parse.single? limits)
      (Parser.start .classic src) fun _ p => p.reader.Within .classic src :=
    Parse.composes_single? (.inl rfl)
  unfold loadSingle at h
  cases hrun : (Parse.single? limits).run (Parser.start .classic src) with
  | error e' =>
    rw [hrun] at h
    cases h
    refine (hsingle.raises hrun).mono fun _ he => ?_
    rcases he with he | ⟨rfl, overfull⟩
    · exact .reading (ParseFailure.scanFailure he)
    · exact .nesting overfull
  | ok read =>
    obtain ⟨g, p⟩ := read
    rw [hrun] at h
    cases g with
    | none => cases h
    | some g =>
      have hend : p.reader.Within .classic src := hsingle.ends hrun
      have hrules : p.rules limits .classic .allowed = .classic ⟨limits, .classic⟩ .allowed := by
        simp [Parser.rules, Rules.classic, Reader.schema, hend.dialect]
      dsimp only [bind, Except.bind] at h
      rw [hrules] at h
      cases hbuilt : g.document (.classic ⟨limits, .classic⟩ .allowed) with
      | ok doc =>
        rw [hbuilt] at h
        cases h
      | error e' =>
        rw [hbuilt] at h
        cases h
        exact (Graph.fails_of_document hbuilt).mono fun _ he => .building hrun he

/-- A text file whose bytes turn out to be no text is not UTF-8. -/
theorem fault_of_ofTextFile {bytes : List UInt8} {f : EncodingFault}
    (h : (Source.ofTextFile bytes).fault = some (.undecodable f)) :
    (Utf8.decode bytes).fault ≠ none := by
  intro hnone
  unfold Source.ofTextFile at h
  simp only [hnone] at h
  split at h <;> cases h

/-- Whether an error in a text is none that a loader reports as one of the text: it is neither a
complaint nor a character that no document may hold. -/
def LoadError.Escapes : LoadError → Prop
  | .complaint .. | .unreadable (.encoding ..) | .unreadable (.control ..) => False
  | _ => True

end Yaml

namespace Config

/-! ## Files -/

theorem loadStop_eq_incident_iff {path : Path} {e : LoadError} {i : Incident} :
    loadStop path e = .incident i ↔
      e.Escapes ∧ i = .document .classic { name := path.text } e := by
  cases e with
  | unreadable f => cases f <;> simp [loadStop, LoadError.Escapes, eq_comm]
  | _ => simp [loadStop, LoadError.Escapes, eq_comm]

theorem loadStop_cases (path : Path) (e : LoadError) :
    (∃ f, loadStop path e = .failure (.config f)) ∨ ∃ i, loadStop path e = .incident i := by
  unfold loadStop
  split
  · exact .inl ⟨_, rfl⟩
  · exact .inl ⟨_, rfl⟩
  · exact .inl ⟨_, rfl⟩
  · exact .inr ⟨_, rfl⟩

/-- Whatever a document holds, reading it as a configuration ends with one or with a failure. -/
theorem ofDocument_cases (limits : Limits) (path : Path) (doc : Option Document) :
    (∃ c, (ofDocument limits path doc).2 = .ok c) ∨
      ∃ f, (ofDocument limits path doc).2 = .error (.failure (.config f)) := by
  unfold ofDocument
  extract_lets finish
  have hfinish : ∀ notices es, (∃ c, (finish notices es).2 = .ok c) ∨
      ∃ f, (finish notices es).2 = .error (.failure (.config f)) := by
    intro notices es
    dsimp only [finish]
    cases read es with
    | ok c => exact .inl ⟨c, rfl⟩
    | error ps => exact .inr ⟨_, rfl⟩
  split
  · exact hfinish [.emptyConfig path] []
  · exact hfinish [.emptyConfig path] []
  · split
    · exact hfinish [] _
    · exact .inr ⟨_, rfl⟩

/-- A file that is there is loaded from its bytes, if they may be read. -/
theorem load_of_lookUp {limits : Limits} {fs : FileSystem} {path : Path} {mode : Mode}
    {bytes : List UInt8}
    (h : fs.lookUp true path = .ok (.file mode bytes)) :
    (load limits fs path).2 =
      if mode.read then
        match loadSingle limits (Source.ofTextFile bytes) with
        | .error e => .error (loadStop path e)
        | .ok doc => (ofDocument limits path doc).2
      else
        failed (.unreadable path
          (.coded (some 13) (some "Permission denied") (some path.text))) := by
  have hfile : fs.isFile path = .ok true := by
    simp only [FileSystem.isFile, FileSystem.isKind, h, Node.isFile]
  unfold load
  simp only [hfile, FileSystem.read_eq h]
  cases mode.read with
  | false => rfl
  | true =>
    simp only [if_true]
    cases loadSingle limits (Source.ofTextFile bytes) <;> rfl

theorem load_cases (limits : Limits) (fs : FileSystem) (path : Path) :
    (∃ c, (load limits fs path).2 = .ok c) ∨
      (∃ f, (load limits fs path).2 = .error (.failure (.config f))) ∨
      ∃ i, (load limits fs path).2 = .error (.incident i) := by
  cases hfile : fs.isFile path with
  | error i => exact .inr (.inr ⟨i, by simp only [load, hfile]⟩)
  | ok there =>
    cases there with
    | false => exact .inr (.inl ⟨.notFound path, by simp only [load, hfile, failed]⟩)
    | true =>
      obtain ⟨mode, bytes, hlook⟩ := FileSystem.lookUp_of_isFile hfile
      rw [load_of_lookUp hlook]
      split
      · cases loadSingle limits (Source.ofTextFile bytes) with
        | error e =>
          rcases loadStop_cases path e with ⟨f, hf⟩ | ⟨i, hi⟩
          · exact .inr (.inl ⟨f, congrArg Except.error hf⟩)
          · exact .inr (.inr ⟨i, congrArg Except.error hi⟩)
        | ok doc => exact (ofDocument_cases limits path doc).imp_right .inl
      · exact .inr (.inl ⟨_, rfl⟩)

/-- An error ends the loading as it is if it comes from the path, or from a text that can be
read. -/
theorem load_eq_incident_iff {limits : Limits} {fs : FileSystem} {path : Path} {i : Incident} :
    (load limits fs path).2 = .error (.incident i) ↔
      (∃ r, (r = .denied ∨ r = .nameTooLong) ∧ fs.lookUp true path = .error r ∧
        i = r.incident path) ∨
      ∃ mode bytes e, fs.lookUp true path = .ok (.file mode bytes) ∧ mode.read = true ∧
        loadSingle limits (Source.ofTextFile bytes) = .error e ∧ e.Escapes ∧
        i = .document .classic { name := path.text } e := by
  constructor
  · intro hi
    cases hfile : fs.isFile path with
    | error i' =>
      have hload : (load limits fs path).2 = .error (.incident i') := by simp only [load, hfile]
      obtain rfl : i' = i := by simpa using hload.symm.trans hi
      exact .inl (FileSystem.isKind_eq_error_iff.mp hfile)
    | ok there =>
      cases there with
      | false => simp [load, hfile, failed] at hi
      | true =>
        obtain ⟨mode, bytes, hlook⟩ := FileSystem.lookUp_of_isFile hfile
        rw [load_of_lookUp hlook] at hi
        split at hi
        · rename_i hread
          cases herror : loadSingle limits (Source.ofTextFile bytes) with
          | error e =>
            rw [herror] at hi
            obtain ⟨hescapes, rfl⟩ := loadStop_eq_incident_iff.mp (Except.error.inj hi)
            exact .inr ⟨mode, bytes, e, hlook, hread, herror, hescapes, rfl⟩
          | ok doc =>
            rw [herror] at hi
            rcases ofDocument_cases limits path doc with ⟨c, hc⟩ | ⟨f, hf⟩
            · cases hc.symm.trans hi
            · cases hf.symm.trans hi
        · cases hi
  · rintro (hrefused | ⟨mode, bytes, e, hlook, hread, herror, hescapes, rfl⟩)
    · have hfile : fs.isFile path = .error i := FileSystem.isKind_eq_error_iff.mpr hrefused
      simp only [load, hfile]
    · have hstop : loadStop path e = .incident (.document .classic { name := path.text } e) :=
        loadStop_eq_incident_iff.mpr ⟨hescapes, rfl⟩
      rw [load_of_lookUp hlook, if_pos hread, herror]
      exact congrArg Except.error hstop

/-- What is no complaint about a text comes from a part of it that can be named. -/
theorem singleFails_of_escapes {limits : Limits} {src : Source} {e : LoadError}
    (herror : loadSingle limits src = .error e) (hescapes : e.Escapes) :
    SingleFails limits src e := by
  have hamong := fails_of_loadSingle herror
  cases e with
  | complaint stage c => exact hescapes.elim
  | _ => exact hamong

/-- Loading ends with a configuration, with a failure of the configuration, or with an error as it
is.  The last happens exactly in two cases.  Either the path is out of reach or too long, so that it
cannot be told whether there is a file.  Or the file can be read, and an error in its text is
neither a complaint nor a forbidden character.  Such an error is met at bytes that are not UTF-8, at
an escape for no character or the number of a version, at a collection that lies in too many others,
or at a node that is tagged as a value which its text does not denote or that uses up the stack.
What a document holds never ends the loading that way once it has been built. -/
theorem load_escapes_iff (limits : Limits) (fs : FileSystem) (path : Path) :
    ((∃ c, (load limits fs path).2 = .ok c) ∨
      (∃ f, (load limits fs path).2 = .error (.failure (.config f))) ∨
      ∃ i, (load limits fs path).2 = .error (.incident i)) ∧
    (∀ i, (load limits fs path).2 = .error (.incident i) ↔
      (∃ r, (r = .denied ∨ r = .nameTooLong) ∧ fs.lookUp true path = .error r ∧
        i = r.incident path) ∨
      ∃ mode bytes e, fs.lookUp true path = .ok (.file mode bytes) ∧ mode.read = true ∧
        loadSingle limits (Source.ofTextFile bytes) = .error e ∧ e.Escapes ∧
        i = .document .classic { name := path.text } e) ∧
    ∀ bytes e, loadSingle limits (Source.ofTextFile bytes) = .error e → e.Escapes →
      SingleFails limits (Source.ofTextFile bytes) e ∧
        ∀ f, e = .unreadable (.undecodable f) → (Utf8.decode bytes).fault ≠ none := by
  refine ⟨load_cases limits fs path, fun i => load_eq_incident_iff,
    fun bytes e herror hescapes => ?_⟩
  have hfails := singleFails_of_escapes herror hescapes
  refine ⟨hfails, ?_⟩
  rintro f rfl
  cases hfails with
  | reading fails =>
    cases fails with
    | unreadable fault => exact fault_of_ofTextFile fault
  | building read fails => exact (Graph.Fails.ofValue fails).elim

/-- A configuration with a day that no month has. -/
def impossibleDay : List UInt8 := "searchPaths: 2020-02-30\n".toUTF8.toList

/-- A file system with that configuration. -/
def impossibleProject : FileSystem where
  root := .directory .ofDirectory [(defaultFileName, .file .ofFile impossibleDay)]

theorem loadSingle_impossibleDay :
    loadSingle .usual (Source.ofTextFile impossibleDay) = .error (.badValue (.calendar .day)) := by
  have herror : (match loadSingle .usual (Source.ofTextFile impossibleDay) with
      | .error e => some e
      | .ok _ => none) = some (.badValue (.calendar .day)) := by decide +kernel
  split at herror
  · rename_i e heq
    rw [heq, Option.some.inj herror]
  · cases herror

theorem impossibleDay_escapes :
    (load .usual impossibleProject (Path.ofText "/.yamlvalidator.yaml")).2 =
        .error (.incident (.document .classic { name := "/.yamlvalidator.yaml" }
          (.badValue (.calendar .day)))) ∧
      SingleFails .usual (Source.ofTextFile impossibleDay) (.badValue (.calendar .day)) := by
  obtain ⟨-, hescapes, hfails⟩ :=
    load_escapes_iff .usual impossibleProject (Path.ofText "/.yamlvalidator.yaml")
  have hlook : impossibleProject.lookUp true (Path.ofText "/.yamlvalidator.yaml") =
      .ok (.file .ofFile impossibleDay) := by rfl
  have hloaded := loadSingle_impossibleDay
  exact ⟨(hescapes _).mpr (.inr ⟨_, _, _, hlook, rfl, hloaded, trivial, rfl⟩),
    (hfails _ _ hloaded trivial).1⟩

/-- Not all that is wrong with a configuration file is reported as a failure of the
configuration. -/
theorem impossibleDay_not_reported :
    ¬∀ (fs : FileSystem) (path : Path) (s : Stop), (load .usual fs path).2 = .error s →
      ∃ f, s = .failure (.config f) := by
  intro h
  have hlook : impossibleProject.lookUp true (Path.ofText "/.yamlvalidator.yaml") =
      .ok (.file .ofFile impossibleDay) := by rfl
  have hread : Mode.ofFile.read = true := rfl
  have hload := @load_of_lookUp .usual _ _ _ _ hlook
  rw [if_pos hread, loadSingle_impossibleDay] at hload
  obtain ⟨f, hf⟩ := h _ _ _ hload
  cases hf

end Config

end YamlCheck
