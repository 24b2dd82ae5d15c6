import YamlCheck.Run

/-!
# The trace of a run

A run is three loops inside each other, and a failure leaves all of them at once.  Here what it
says, what it opens and what stops it are written as functions of lists: the search paths, the
files of a directory and the documents of a file, each cut off after the first failure.
-/

namespace YamlCheck

/-- The elements of a list up to the first one with a property, and that one. -/
def upToFirst {α : Type} (p : α → Bool) : List α → List α
  | [] => []
  | x :: xs => if p x then [x] else x :: upToFirst p xs

def Report.startedFile? : Report → Option Path
  | .startingFile file => some file
  | _ => none

namespace Narrative

@[simp] theorem andThen_of_stop {a : Narrative} {b : Unit → Narrative} {s : Stop}
    (h : a.stop = some s) : a.andThen b = a := by
  simp [andThen, h]

theorem andThen_of_end {a : Narrative} {b : Unit → Narrative} (h : a.stop = none) :
    a.andThen b = ⟨a.reports ++ (b ()).reports, a.opened ++ (b ()).opened, (b ()).stop⟩ := by
  simp [andThen, h]

/-- One activity for each element of a list, up to the first one that is stopped. -/
def inOrder {α : Type} (f : α → Narrative) : List α → Narrative
  | [] => .quiet
  | x :: xs => (f x).andThen fun _ => inOrder f xs

section InOrder

variable {α : Type} (f : α → Narrative)

theorem inOrder_reports (xs : List α) :
    (inOrder f xs).reports =
      (upToFirst (fun x => (f x).stop.isSome) xs).flatMap fun x => (f x).reports := by
  induction xs with
  | nil => rfl
  | cons x xs ih =>
      cases h : (f x).stop with
      | some s => simp [inOrder, upToFirst, h]
      | none => simp [inOrder, upToFirst, h, andThen_of_end h, ih]

theorem inOrder_stop (xs : List α) : (inOrder f xs).stop = xs.findSome? fun x => (f x).stop := by
  induction xs with
  | nil => rfl
  | cons x xs ih =>
      cases h : (f x).stop with
      | some s => simp [inOrder, h]
      | none => simp [inOrder, h, andThen_of_end h, ih]

/-- The first activity that is stopped is the last one, whatever else was to come. -/
theorem inOrder_stopped {xs ys : List α} {x : α} {s : Stop} (hxs : (inOrder f xs).stop = none)
    (hx : (f x).stop = some s) :
    inOrder f (xs ++ x :: ys) =
      ⟨(inOrder f xs).reports ++ (f x).reports, (inOrder f xs).opened ++ (f x).opened, some s⟩ := by
  induction xs with
  | nil =>
      have halone : inOrder f (x :: ys) = f x := andThen_of_stop hx
      rw [List.nil_append, halone, ← hx]
      rfl
  | cons first xs ih =>
      cases hfirst : (f first).stop with
      | some t => simp [inOrder, hfirst] at hxs
      | none =>
          rw [inOrder, andThen_of_end hfirst] at hxs
          simp only [List.cons_append, inOrder, andThen_of_end hfirst, ih hxs, List.append_assoc]

end InOrder

/-- In an activity that opens nothing unannounced, whatever stops it at a file stops it at the
file that it opened last. -/
structure Announced (stopAt : Path → Option Stop) (n : Narrative) : Prop where
  opened : n.opened = n.reports.filterMap Report.startedFile?
  stop : ∀ file ∈ n.opened, ∀ s, stopAt file = some s →
    n.opened.getLast? = some file ∧ n.stop = some s

namespace Announced

variable {stopAt : Path → Option Stop}

theorem quiet : Announced stopAt Narrative.quiet where
  opened := rfl
  stop := by simp [Narrative.quiet]

/-- A file that stopped the first of two activities was opened last, and there is no second one;
so an unstopped first activity opened no such file. -/
theorem andThen {a : Narrative} {b : Unit → Narrative} (ha : Announced stopAt a)
    (hb : Announced stopAt (b ())) : Announced stopAt (a.andThen b) := by
  cases h : a.stop with
  | some s => simpa [h] using ha
  | none =>
      rw [andThen_of_end h]
      refine ⟨by simp [ha.opened, hb.opened], ?_⟩
      intro file hf s hs
      rcases List.mem_append.mp hf with hf | hf
      · have := (ha.stop file hf s hs).2
        simp [h] at this
      · obtain ⟨hlast, hstop⟩ := hb.stop file hf s hs
        exact ⟨by simp [hlast], hstop⟩

theorem inOrder {α : Type} {f : α → Narrative} (xs : List α)
    (hf : ∀ x ∈ xs, Announced stopAt (f x)) : Announced stopAt (inOrder f xs) := by
  induction xs with
  | nil => exact quiet
  | cons x xs ih =>
      exact (hf x (by simp)).andThen (ih fun y hy => hf y (by simp [hy]))

theorem after {n : Narrative} (hn : Announced stopAt n) {r : Report}
    (hr : r.startedFile? = none) : Announced stopAt (n.after r) where
  opened := by simp [Narrative.after, hn.opened, hr]
  stop := hn.stop

end Announced

end Narrative

/-- What a run raises when the passage through a file is stopped: what is wrong with a document or
what the operating system reports becomes the cause of a failure of the file. -/
def raised (file : Path) : Stop → Stop
  | .failure (.file (.malformed d q l k cause)) =>
    .failure (.validation (failureText file) file (some (.malformed d q l k cause)))
  | .incident (.system e) =>
    .failure (.validation (failureText file) file
      (some (.unreadable file e.reason (some (.system e)))))
  | s => s

inductive Target
  | directory (p : Path)
  | file (p : Path)
  /-- The path leads to nothing that can be checked, which stops a run. -/
  | nothing (s : Stop)

/-- What a search path leads to from a project directory. -/
def FileSystem.target (fs : FileSystem) (directory : Path) (path : Text.Letters) : Target :=
  match fs.resolve path directory with
  | .error s => .nothing s
  | .ok p =>
    match fs.isDirectory p, fs.isFile p with
    | .ok true, _ => .directory p
    | .ok false, .ok true => .file p
    | .ok false, .ok false => .nothing (.failure (.classification p))
    | .ok false, .error i => .nothing (.incident i)
    | .error i, _ => .nothing (.incident i)

namespace Checker

variable (c : Checker) (fs : FileSystem) (recursive : Bool)

/-- What is said of a file: one line at its start, one for each of its documents, and one at its end
if it comes to it. -/
def fileBlock (file : Path) : List Report :=
  let p := c.passage fs file
  .startingFile file :: ((List.range p.documents).map fun i => .documentSuccess (i + 1) file) ++
    if p.stop.isNone then [.fileSuccess file] else []

/-- What a file stops a run with. -/
def fileStop (file : Path) : Option Stop := (c.passage fs file).stop.map (raised file)

/-- What is said of a target: of a directory one line and the blocks of its files up to the first
one that fails, of a YAML file its block, of anything else nothing. -/
def targetBlock : Target → List Report
  | .directory p =>
    .startingDirectory p recursive ::
      (upToFirst (fun file => (c.passage fs file).stop.isSome)
          (fs.discover p recursive).files).flatMap
        (c.fileBlock fs)
  | .file p => if isYamlName p.name then c.fileBlock fs p else []
  | .nothing _ => []

/-- What a target stops a run with: the first file that fails, or else what the search of its
directory ends with. -/
def targetStop : Target → Option Stop
  | .directory p =>
    ((fs.discover p recursive).files.findSome? (c.fileStop fs)).or (fs.discover p recursive).stop
  | .file p => if isYamlName p.name then c.fileStop fs p else none
  | .nothing s => some s

theorem checkFile_eq (file : Path) :
    c.checkFile fs file = ⟨c.fileBlock fs file, [file], c.fileStop fs file⟩ := by
  unfold checkFile validate fileBlock fileStop
  rcases c.passage fs file with ⟨n, _ | s⟩
  · rfl
  · cases s with
    | failure f =>
        cases f with
        | file f => cases f <;> simp [documentReports, raised]
        | _ => simp [documentReports, raised]
    | incident i => cases i <;> simp [documentReports, raised, FileFailure.ofSystem]

theorem checkFiles_eq (files : List Path) :
    c.checkFiles fs files = .inOrder (c.checkFile fs) files := by
  induction files with
  | nil => rfl
  | cons file rest ih => simp only [checkFiles, Narrative.inOrder, ih]

theorem checkFiles_reports (files : List Path) :
    (c.checkFiles fs files).reports =
      (upToFirst (fun file => (c.passage fs file).stop.isSome) files).flatMap (c.fileBlock fs) := by
  rw [checkFiles_eq, Narrative.inOrder_reports]
  simp only [checkFile_eq, fileStop, Option.isSome_map]

theorem checkFiles_stop (files : List Path) :
    (c.checkFiles fs files).stop = files.findSome? (c.fileStop fs) := by
  rw [checkFiles_eq, Narrative.inOrder_stop]
  simp only [checkFile_eq]

def checkTarget : Target → Narrative
  | .directory p => c.checkDirectory fs p recursive
  | .file p => if isYamlName p.name then c.checkFile fs p else .quiet
  | .nothing s => .stopped s

theorem checkTarget_target (directory : Path) (path : Text.Letters) :
    c.checkTarget fs recursive (fs.target directory path) =
      match fs.resolve path directory with
      | .error s => .stopped s
      | .ok p => c.checkPath fs p recursive := by
  unfold FileSystem.target
  cases fs.resolve path directory with
  | error s => rfl
  | ok p =>
      simp only [checkPath, FileSystem.isYaml]
      cases fs.isDirectory p with
      | error i => rfl
      | ok isDirectory =>
          cases isDirectory with
          | true => rfl
          | false =>
              cases fs.isFile p with
              | error i => rfl
              | ok isFile =>
                  cases isFile with
                  | false => rfl
                  | true =>
                      simp only [Bool.not_false, Bool.true_and, checkTarget]
                      cases isYamlName p.name <;> rfl

theorem checkAll_eq (directory : Path) (paths : List Text.Letters) :
    c.checkAll fs directory recursive paths =
      .inOrder (c.checkTarget fs recursive) (paths.map (fs.target directory)) := by
  induction paths with
  | nil => rfl
  | cons path rest ih =>
      simp only [checkAll, List.map_cons, Narrative.inOrder, checkTarget_target, ih]
      cases fs.resolve path directory with
      | error s => rfl
      | ok p => rfl

theorem checkTarget_reports (t : Target) :
    (c.checkTarget fs recursive t).reports = c.targetBlock fs recursive t := by
  cases t with
  | directory p =>
      have hfiles := c.checkFiles_reports fs (fs.discover p recursive).files
      cases h : (c.checkFiles fs (fs.discover p recursive).files).stop <;>
        simp [checkTarget, checkDirectory, targetBlock, Narrative.after, Narrative.andThen, h,
          hfiles]
  | file p =>
      by_cases h : isYamlName p.name <;>
        simp [checkTarget, targetBlock, h, checkFile_eq, Narrative.quiet]
  | nothing s => rfl

theorem checkTarget_stop (t : Target) :
    (c.checkTarget fs recursive t).stop = c.targetStop fs recursive t := by
  cases t with
  | directory p =>
      have hfiles := c.checkFiles_stop fs (fs.discover p recursive).files
      cases h : (c.checkFiles fs (fs.discover p recursive).files).stop <;>
        simp [checkTarget, checkDirectory, targetStop, Narrative.after, Narrative.andThen, h,
          ← hfiles]
  | file p =>
      by_cases h : isYamlName p.name <;>
        simp [checkTarget, targetStop, h, checkFile_eq, Narrative.quiet]
  | nothing s => rfl

theorem announced_checkFile (file : Path) :
    (c.checkFile fs file).Announced (c.fileStop fs) := by
  have hdocuments : ∀ n, ((List.range n).map fun i => Report.documentSuccess (i + 1) file).filterMap
      Report.startedFile? = [] := by
    intro n
    simp [List.filterMap_map, Function.comp_def, Report.startedFile?]
  rw [checkFile_eq]
  constructor
  · cases h : (c.passage fs file).stop.isNone <;>
      simp [fileBlock, h, hdocuments, Report.startedFile?]
  · intro f hf s hs
    obtain rfl := List.mem_singleton.mp hf
    exact ⟨rfl, hs⟩

theorem announced_checkTarget (t : Target) :
    (c.checkTarget fs recursive t).Announced (c.fileStop fs) := by
  cases t with
  | directory p =>
      have hfiles : (c.checkFiles fs (fs.discover p recursive).files).Announced
          (c.fileStop fs) := by
        rw [checkFiles_eq]
        exact .inOrder _ fun file _ => c.announced_checkFile fs file
      have hend : (⟨[], [], (fs.discover p recursive).stop⟩ : Narrative).Announced
          (c.fileStop fs) := ⟨rfl, by simp⟩
      exact (hfiles.andThen hend).after rfl
  | file p =>
      simp only [checkTarget]
      split
      · exact c.announced_checkFile fs p
      · exact .quiet
  | nothing s => exact ⟨rfl, by simp [checkTarget, Narrative.stopped]⟩

end Checker

/-- What a run says is what is said of its search paths, in order, up to the first one that stops
it; what stops it there stops the run.  It opens the files that it says it starts and no other.  A
file whose passage is stopped is the last one opened, and it stops the run: with a failure of that
file, caused by the very complaint about a document or by the error of the operating system. -/
theorem Config.runWith_trace (config : Config) (backend : Backend) (fs : FileSystem)
    (directory : Path) :
    let c : Checker := ⟨backend, config.duplicates⟩
    let run := config.runWith backend fs directory
    let targets := config.searchPaths.map (fs.target directory)
    run.reports =
        (upToFirst (fun t => (c.targetStop fs config.searchRecursive t).isSome) targets).flatMap
          (c.targetBlock fs config.searchRecursive) ∧
      run.stop = targets.findSome? (c.targetStop fs config.searchRecursive) ∧
      run.opened = run.reports.filterMap Report.startedFile? ∧
      ∀ file ∈ run.opened, ∀ s, (c.passage fs file).stop = some s →
        run.opened.getLast? = some file ∧ run.stop = some (raised file s) := by
  intro c run targets
  have hrun : run = .inOrder (c.checkTarget fs config.searchRecursive) targets :=
    c.checkAll_eq fs config.searchRecursive directory config.searchPaths
  have hannounced : run.Announced (c.fileStop fs) := by
    rw [hrun]
    exact .inOrder targets fun t _ => c.announced_checkTarget fs config.searchRecursive t
  refine ⟨?_, ?_, hannounced.opened, ?_⟩
  · rw [hrun, Narrative.inOrder_reports]
    simp only [Checker.checkTarget_reports, Checker.checkTarget_stop]
  · rw [hrun, Narrative.inOrder_stop]
    simp only [Checker.checkTarget_stop]
  · intro file hf s hs
    exact hannounced.stop file hf (raised file s) (by simp [Checker.fileStop, hs])

end YamlCheck
