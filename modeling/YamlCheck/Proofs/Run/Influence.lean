import YamlCheck.Proofs.Discovery.Exact
import YamlCheck.Proofs.FileSystem.Outline
import YamlCheck.Proofs.Run.Resolution
import YamlCheck.Proofs.Run.Trace

/-!
# What influences a run

A run opens files by the canonical paths that search paths are resolved to and by the paths of the
entries below them, and only those whose last name is that of a YAML file.  So a file that has
another name, and that no link with such a name leads to, is never opened: what a run does, says and
ends with does not depend on what is in this file.
-/

namespace YamlCheck

namespace FileSystem

open YamlCheck.Path

variable {fs fs' : FileSystem}

/-! ## Where locations are found -/

/-- Nodes that are no links are found nowhere but at their locations. -/
theorem Reaches.stop_eq (hfs : fs.WellFormed) {links : Nat} {front back : Location}
    {stop : Location} {n : Node} (h : Reaches fs links front back stop)
    (hnode : fs.node? (front ++ back) = some n) (hlink : ∀ target, n ≠ .link target) :
    stop = front ++ back := by
  induction back generalizing front with
  | nil =>
      cases h
      rw [List.append_nil]
  | cons name rest ih =>
      rw [List.append_cons] at hnode ⊢
      have hhere : ∃ here, fs.node? (front ++ [name]) = some here ∧ here.get? rest = some n := by
        unfold node? at hnode ⊢
        rw [Node.get?_append] at hnode
        exact Option.bind_eq_some_iff.mp hnode
      obtain ⟨here, hhere, hbelow⟩ := hhere
      have hplain : isPlain name = true := by
        have hname := isEntryName_of_node? hfs hhere
        simp only [isEntryName, Bool.and_eq_true] at hname
        rw [isPlain, Bool.and_eq_true]
        exact hname.1.1.1
      cases h with
      | onward hturn hrest =>
          obtain ⟨rfl, -⟩ := turn_onward hturn hplain
          exact ih hrest hnode
      | link hturn _ =>
          -- Below a link there is nothing, and at its own location there is no other node.
          rw [turn_link hturn] at hhere
          cases hhere
          cases rest with
          | nil =>
              simp only [Node.get?, Option.some.injEq] at hbelow
              exact absurd hbelow.symm (hlink _)
          | cons next rest => simp [Node.get?] at hbelow

theorem locate_pathOf (hfs : fs.WellFormed) {loc stop : Location} {n : Node}
    (h : fs.locate true (pathOf loc) = .ok stop) (hnode : fs.node? loc = some n)
    (hlink : ∀ target, n ≠ .link target) : stop = loc := by
  obtain ⟨-, hwalk⟩ := locate_ok h
  exact (reaches_of_walk hwalk).stop_eq hfs hnode hlink

/-- Candidates below a canonical directory are the paths of nodes. -/
theorem node?_of_mem_candidates (hfs : fs.WellFormed) {loc : Location} (hloc : Canonical fs loc)
    {recursive : Bool} {ps : List Path} (h : fs.candidates (pathOf loc) recursive = .ok ps)
    {q : Path} (hq : q ∈ ps) : ∃ here n, q = pathOf here ∧ fs.node? here = some n := by
  obtain ⟨result, hsurvey, hcandidates⟩ := candidates_eq hfs (pathOf loc) recursive
  rw [h] at hcandidates
  cases result with
  | error e => cases hcandidates
  | ok found =>
      obtain rfl : ps = Path.sort found := Except.ok.inj hcandidates
      rw [(Path.sort_perm found).mem_iff, hsurvey.2] at hq
      obtain hnone | ⟨d, names, name, hd, hlist, hname, rfl⟩ := hq
      · exact hnone.elim
      obtain ⟨mode, entries, hlook, rfl⟩ := directory_of_list hlist
      obtain ⟨place, hplace, hnode⟩ := locate_of_lookUp hlook
      obtain ⟨entry, hentry, rfl⟩ := List.mem_map.mp hname
      have hdirectory : d = pathOf place := by
        rcases (scanned_iff d).mp hd with rfl | ⟨-, top, names, m, es, htop, hunder, rfl⟩
        · rw [hloc.locate_eq] at hplace
          rw [Except.ok.inj hplace]
        · rw [hloc.locate_eq] at htop
          cases htop
          have hsame : place = loc ++ names := locate_pathOf hfs hplace hunder (by simp)
          rw [hsame]
          rfl
      subst hdirectory
      exact ⟨place ++ [entry.1], entry.2, rfl, node?_child hfs hnode hentry⟩

/-! ## Reading -/

/-- Whether links with the name of a YAML file all lead elsewhere, and the location itself has
another name. -/
structure Unseen (fs : FileSystem) (f : Location) : Prop where
  name : isYamlName (pathOf f).name = false
  links : ∀ loc target, fs.node? loc = some (.link target) → isYamlName (pathOf loc).name = true →
    fs.locate true (pathOf loc) ≠ .ok f

/-- It is enough to look at the links that there are. -/
theorem unseen_of_linkPlaces {f : Location} (hname : isYamlName (pathOf f).name = false)
    (hlinks : ∀ loc ∈ fs.root.linkPlaces, isYamlName (pathOf loc).name = true →
      fs.locate true (pathOf loc) ≠ .ok f) : Unseen fs f where
  name := hname
  links loc _ hlink := hlinks loc (Node.mem_linkPlaces hlink)

theorem Unseen.locate_ne {f loc : Location} {n : Node} (h : Unseen fs f) (hfs : fs.WellFormed)
    (hnode : fs.node? loc = some n) (hyaml : isYamlName (pathOf loc).name = true) :
    fs.locate true (pathOf loc) ≠ .ok f := by
  intro hfound
  by_cases hlink : ∃ target, n = .link target
  · obtain ⟨target, rfl⟩ := hlink
    exact h.links loc target hnode hyaml hfound
  · obtain rfl := locate_pathOf hfs hfound hnode fun target heq => hlink ⟨target, heq⟩
    rw [h.name] at hyaml
    cases hyaml

theorem DifferOnlyAt.locate_eq {f : Location} (h : DifferOnlyAt fs fs' f) (followLast : Bool)
    (p : Path) : fs'.locate followLast p = fs.locate followLast p := by
  rw [← locate_outline fs, ← h.outline, locate_outline fs']

/-- A path that does not lead to the changed file leads to the same node, but for what is changed
below it. -/
theorem DifferOnlyAt.lookUp {f : Location} (h : DifferOnlyAt fs fs' f) {p : Path}
    (hp : fs.locate true p ≠ .ok f) :
    (∃ r, fs.lookUp true p = .error r ∧ fs'.lookUp true p = .error r) ∨
      ∃ n n', fs.lookUp true p = .ok n ∧ fs'.lookUp true p = .ok n' ∧ n'.outline = n.outline ∧
        ∀ mode bytes, n = .file mode bytes → n' = n := by
  cases hloc : fs.locate true p with
  | error r =>
      have hloc' : fs'.locate true p = .error r := by rw [h.locate_eq, hloc]
      exact .inl ⟨r, by simp [FileSystem.lookUp, bind, Except.bind, hloc],
        by simp [FileSystem.lookUp, bind, Except.bind, hloc']⟩
  | ok loc =>
      have hloc' : fs'.locate true p = .ok loc := by rw [h.locate_eq, hloc]
      have hother : loc ≠ f := fun heq => hp (by rw [hloc, heq])
      have hsame : (fs'.node? loc).map Node.outline = (fs.node? loc).map Node.outline := by
        rw [← node?_outline, ← node?_outline, h.outline]
      cases hnode : fs.node? loc with
      | none =>
          rw [hnode, Option.map_none, Option.map_eq_none_iff] at hsame
          exact .inl ⟨.missing, by simp [FileSystem.lookUp, bind, Except.bind, hloc, hnode],
            by simp [FileSystem.lookUp, bind, Except.bind, hloc', hsame]⟩
      | some n =>
          rw [hnode, Option.map_some, Option.map_eq_some_iff] at hsame
          obtain ⟨n', hnode', houtline⟩ := hsame
          refine .inr ⟨n, n', lookUp_eq hloc hnode, lookUp_eq hloc' hnode', houtline, ?_⟩
          rintro mode bytes rfl
          rw [h.bytes loc hother mode bytes hnode] at hnode'
          exact (Option.some.inj hnode').symm

theorem DifferOnlyAt.read_eq {f : Location} (h : DifferOnlyAt fs fs' f) {p : Path}
    (hp : fs.locate true p ≠ .ok f) : fs'.read p = fs.read p := by
  unfold read
  rcases h.lookUp hp with ⟨r, hlook, hlook'⟩ | ⟨n, n', hlook, hlook', houtline, hfile⟩
  · rw [hlook, hlook']
  rw [hlook, hlook']
  cases n with
  | file mode bytes => rw [hfile mode bytes rfl]
  | directory mode entries =>
      cases n' <;> simp [Node.outline] at houtline
      rfl
  | link target =>
      cases n' <;> simp [Node.outline] at houtline
      rfl
  | pipe mode =>
      cases n' <;> simp [Node.outline] at houtline
      rw [houtline]

end FileSystem

/-! ## Two runs -/

theorem Narrative.inOrder_congr {α : Type} {a b : α → Narrative} {xs : List α}
    (h : ∀ x ∈ xs, a x = b x) : inOrder a xs = inOrder b xs := by
  induction xs with
  | nil => rfl
  | cons x xs ih =>
      have hrest := ih fun y hy => h y (List.mem_cons_of_mem x hy)
      simp only [inOrder, h x (List.mem_cons_self ..), hrest]

theorem Narrative.inOrder_map {α β : Type} (a : β → Narrative) (g : α → β) (xs : List α) :
    inOrder a (xs.map g) = inOrder (fun x => a (g x)) xs := by
  induction xs with
  | nil => rfl
  | cons x xs ih => simp only [List.map_cons, inOrder, ih]

theorem Discovered.isYaml_of_mem {fs : FileSystem} {ps : List Path} {q : Path}
    (h : q ∈ (ofCandidates fs ps).files) : fs.isYaml q = .ok true := by
  induction ps with
  | nil => simp [ofCandidates] at h
  | cons p rest ih =>
      simp only [ofCandidates] at h
      split at h
      · rename_i hp
        rcases List.mem_cons.mp h with rfl | h
        · exact hp
        · exact ih h
      · exact ih h
      · simp at h

theorem FileSystem.isYaml_eq_true {fs : FileSystem} {p : Path} (h : fs.isYaml p = .ok true) :
    fs.isDirectory p = .ok false ∧ isYamlName p.name = true := by
  unfold isYaml at h
  split at h
  · rename_i directory hp
    simpa [hp] using h
  · cases h

theorem Discovered.isYamlName_of_mem {fs : FileSystem} {ps : List Path} {q : Path}
    (h : q ∈ (ofCandidates fs ps).files) : isYamlName q.name = true :=
  (FileSystem.isYaml_eq_true (isYaml_of_mem h)).2

namespace FileSystem

variable {fs fs' : FileSystem} {f : Location}

/-- The files that are discovered in or below a canonical directory are no way to an unseen file. -/
theorem Unseen.locate_ne_of_mem_discover (h : Unseen fs f) (hfs : fs.WellFormed) {loc : Location}
    (hloc : Canonical fs loc) {recursive : Bool} {q : Path}
    (hq : q ∈ (fs.discover (pathOf loc) recursive).files) : fs.locate true q ≠ .ok f := by
  unfold discover at hq
  cases hcandidates : fs.candidates (pathOf loc) recursive with
  | error s => simp [hcandidates] at hq
  | ok ps =>
      rw [hcandidates] at hq
      have hyaml := Discovered.isYamlName_of_mem hq
      have hmem := (ofCandidates_sublist fs ps).subset hq
      obtain ⟨here, n, rfl, hnode⟩ := node?_of_mem_candidates hfs hloc hcandidates hmem
      exact h.locate_ne hfs hnode hyaml

theorem target_outline (fs : FileSystem) (directory : Path) (path : Text.Letters) :
    fs.outline.target directory path = fs.target directory path := by
  simp only [target, resolve_outline, isDirectory_outline, isFile_outline]

/-- Where a run starts to check is canonical. -/
theorem target_isCanonical {directory p : Path} {path : Text.Letters}
    (h : fs.target directory path = .directory p ∨ fs.target directory path = .file p) :
    ∃ loc, p = pathOf loc ∧ Canonical fs loc := by
  unfold target at h
  cases hresolve : fs.resolve path directory with
  | error s => simp [hresolve] at h
  | ok q =>
      obtain ⟨loc, rfl, hloc, -⟩ := resolve_eq_ok hresolve
      have hp : p = pathOf loc := by
        rw [hresolve] at h
        simp only at h
        split at h
        all_goals simp at h
        all_goals exact h.symm
      exact ⟨loc, hp, hloc⟩

end FileSystem

namespace Checker

open FileSystem

variable {fs fs' : FileSystem} {f : Location}

theorem checkFile_congr (c : Checker) {file : Path} (h : fs'.read file = fs.read file) :
    c.checkFile fs' file = c.checkFile fs file := by
  simp only [checkFile, validate, passage, h]

theorem checkTarget_congr (c : Checker) (hfs : fs.WellFormed) (h : DifferOnlyAt fs fs' f)
    (hf : Unseen fs f) (recursive : Bool) (directory : Path) (path : Text.Letters) :
    c.checkTarget fs' recursive (fs'.target directory path) =
      c.checkTarget fs recursive (fs.target directory path) := by
  have htarget : fs'.target directory path = fs.target directory path := by
    rw [← target_outline fs, ← h.outline, target_outline fs']
  rw [htarget]
  cases ht : fs.target directory path with
  | nothing s => rfl
  | file p =>
      obtain ⟨loc, rfl, hloc⟩ := target_isCanonical (.inr ht)
      obtain ⟨n, hnode⟩ := hloc.node?_isSome
      simp only [checkTarget]
      cases hyaml : isYamlName (pathOf loc).name with
      | false => rfl
      | true => exact c.checkFile_congr (h.read_eq (hf.locate_ne hfs hnode hyaml))
  | directory p =>
      obtain ⟨loc, rfl, hloc⟩ := target_isCanonical (.inl ht)
      have hdiscover :
          fs'.discover (pathOf loc) recursive = fs.discover (pathOf loc) recursive := by
        rw [← discover_outline fs, ← h.outline, discover_outline fs']
      have hfiles : c.checkFiles fs' (fs.discover (pathOf loc) recursive).files =
          c.checkFiles fs (fs.discover (pathOf loc) recursive).files := by
        rw [checkFiles_eq, checkFiles_eq]
        apply Narrative.inOrder_congr
        intro q hq
        exact c.checkFile_congr (h.read_eq (hf.locate_ne_of_mem_discover hfs hloc hq))
      simp only [checkTarget, checkDirectory, hdiscover, hfiles]

end Checker

/-- A file that has not the name of a YAML file, and that no link with such a name leads to, has no
influence on a run: whatever bytes are in it, the run says and opens the same and ends the same. -/
theorem Config.runWith_unseen (config : Config) (backend : Backend) {fs fs' : FileSystem}
    {f : Location} (hfs : fs.WellFormed) (hdiffer : fs.DifferOnlyAt fs' f) (hunseen : fs.Unseen f)
    (directory : Path) :
    config.runWith backend fs' directory = config.runWith backend fs directory := by
  simp only [runWith, Checker.checkAll_eq, Narrative.inOrder_map]
  apply Narrative.inOrder_congr
  intro path _
  exact Checker.checkTarget_congr _ hfs hdiffer hunseen _ _ _

/-- A project with notes, a link to them and a link with the name of a YAML file. -/
def FileSystem.notedProject : FileSystem where
  root := .directory .ofDirectory
    [("project", .directory .ofDirectory
      [("notes.txt", .file .ofFile "a: [".toUTF8.toList),
        ("notes", .link "notes.txt"),
        ("a.yaml", .link "b.yml"),
        ("b.yml", .file .ofFile "b: 2\n".toUTF8.toList)])]

def Config.wholeProject : Config where
  searchPaths := ["project", "project/notes"]
  searchRecursive := true

theorem Config.wholeProject_unseen :
    FileSystem.notedProject.WellFormed ∧
      FileSystem.notedProject.Unseen ["project", "notes.txt"] ∧
        wholeProject.runWith (.ofDialect .usual .modern)
            (FileSystem.notedProject.replace ["project", "notes.txt"] (.file .ofFile []))
            ⟨.slash, []⟩ =
          wholeProject.runWith (.ofDialect .usual .modern) .notedProject ⟨.slash, []⟩ := by
  have hfs : FileSystem.notedProject.WellFormed := by decide +kernel
  have hunseen : FileSystem.notedProject.Unseen ["project", "notes.txt"] :=
    FileSystem.unseen_of_linkPlaces (by decide +kernel) (by decide +kernel)
  have hdiffer := FileSystem.differOnlyAt_replace hfs
    (show FileSystem.notedProject.node? ["project", "notes.txt"] = some (.file .ofFile _) from rfl)
    []
  exact ⟨hfs, hunseen,
    runWith_unseen wholeProject (.ofDialect .usual .modern) hfs hdiffer hunseen ⟨.slash, []⟩⟩

end YamlCheck
