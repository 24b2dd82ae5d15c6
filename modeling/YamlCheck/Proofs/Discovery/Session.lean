import YamlCheck.Proofs.Discovery.Order

/-!
# A discovery while the file system changes

A discovery lists its candidates when its first file is asked for, and asks of each of them whether
it counts only when its turn comes.  Between two calls for a file the file system may become any
other one.  Each call takes its turns from the front of what is left of the candidates, so they come
at most once and in order, whatever happens in between.
-/

namespace YamlCheck

namespace FileSystem

theorem isYaml_eq_true_iff {fs : FileSystem} {p : Path} :
    fs.isYaml p = .ok true ↔ fs.isDirectory p = .ok false ∧ isYamlName p.name = true := by
  unfold isYaml
  cases hp : fs.isDirectory p with
  | error i => simp
  | ok directory => cases directory <;> simp

theorem isYaml_eq_error_iff {fs : FileSystem} {p : Path} {i : Incident} :
    fs.isYaml p = .error i ↔ fs.isDirectory p = .error i := by
  unfold isYaml
  cases hp : fs.isDirectory p <;> simp

end FileSystem

namespace Discovery

/-- The candidates whose turn comes in one call: all up to the first one that counts, or that
cannot be told from a directory. -/
def turnsOf (fs : FileSystem) : List Path → List Path
  | [] => []
  | p :: rest =>
    match fs.isYaml p with
    | .ok false => p :: turnsOf fs rest
    | _ => [p]

def turns (fs : FileSystem) : Discovery → List Path
  | .fresh directory recursive =>
    match fs.candidates directory recursive with
    | .ok ps => turnsOf fs ps
    | .error _ => []
  | .pending rest => turnsOf fs rest

/-- What one call makes of some candidates: the turns taken, the answer and the candidates left. -/
inductive Advances (fs : FileSystem) :
    List Path → List Path → Except Stop (Option Path) → List Path → Prop
  | ended {skipped : List Path} (h : ∀ p ∈ skipped, fs.isYaml p = .ok false) :
    Advances fs skipped skipped (.ok none) []
  | found {skipped rest : List Path} {p : Path} (h : ∀ p ∈ skipped, fs.isYaml p = .ok false)
    (hp : fs.isYaml p = .ok true) :
    Advances fs (skipped ++ p :: rest) (skipped ++ [p]) (.ok (some p)) rest
  | failed {skipped rest : List Path} {p : Path} {i : Incident}
    (h : ∀ p ∈ skipped, fs.isYaml p = .ok false) (hp : fs.isYaml p = .error i) :
    Advances fs (skipped ++ p :: rest) (skipped ++ [p]) (.error (.incident i)) []

section

variable {fs : FileSystem} {p : Path} {candidates turns rest : List Path}
  {answer : Except Stop (Option Path)}

theorem Advances.skip (hp : fs.isYaml p = .ok false)
    (h : Advances fs candidates turns answer rest) :
    Advances fs (p :: candidates) (p :: turns) answer rest := by
  have hskip : ∀ {skipped : List Path}, (∀ q ∈ skipped, fs.isYaml q = .ok false) →
      ∀ q ∈ p :: skipped, fs.isYaml q = .ok false :=
    fun hskipped => List.forall_mem_cons.mpr ⟨hp, hskipped⟩
  cases h with
  | ended hskipped => exact .ended (hskip hskipped)
  | found hskipped hfound => exact .found (hskip hskipped) hfound
  | failed hskipped hfailed => exact .failed (hskip hskipped) hfailed

theorem nextOf_advances (fs : FileSystem) (candidates : List Path) :
    ∃ rest, (nextOf fs candidates).2 = .pending rest ∧
      Advances fs candidates (turnsOf fs candidates) (nextOf fs candidates).1 rest := by
  induction candidates with
  | nil => exact ⟨[], rfl, .ended (by simp)⟩
  | cons p others ih =>
      unfold nextOf turnsOf
      cases hp : fs.isYaml p with
      | error i => exact ⟨[], rfl, .failed (List.forall_mem_nil _) hp⟩
      | ok counts =>
          cases counts with
          | true => exact ⟨others, rfl, .found (List.forall_mem_nil _) hp⟩
          | false =>
              obtain ⟨rest, hrest, hadvances⟩ := ih
              exact ⟨rest, hrest, hadvances.skip hp⟩

/-- Of the file system a call learns the answers to its tests, and nothing else. -/
theorem nextOf_congr {fs' : FileSystem}
    (tests : ∀ p ∈ turnsOf fs candidates, fs'.isDirectory p = fs.isDirectory p) :
    nextOf fs' candidates = nextOf fs candidates := by
  induction candidates with
  | nil => rfl
  | cons p others ih =>
      unfold turnsOf at tests
      have hp : fs'.isYaml p = fs.isYaml p := by
        have hsame : fs'.isDirectory p = fs.isDirectory p := by
          apply tests
          split <;> simp
        unfold FileSystem.isYaml
        rw [hsame]
      unfold nextOf
      rw [hp]
      cases hyaml : fs.isYaml p with
      | error i => rfl
      | ok counts =>
          cases counts with
          | true => rfl
          | false =>
              apply ih
              intro q hq
              apply tests
              simp [hyaml, hq]

/-- A turn is answered by its own test. -/
theorem Advances.turn (h : Advances fs candidates turns answer rest) (hp : p ∈ turns) :
    fs.isYaml p = .ok false ∨ (fs.isYaml p = .ok true ∧ answer = .ok (some p)) ∨
      ∃ i, fs.isYaml p = .error i ∧ answer = .error (.incident i) := by
  cases h with
  | ended hskipped => exact .inl (hskipped p hp)
  | found hskipped hfound =>
      rcases List.mem_append.mp hp with hp | hp
      · exact .inl (hskipped p hp)
      · obtain rfl := List.mem_singleton.mp hp
        exact .inr (.inl ⟨hfound, rfl⟩)
  | failed hskipped hfailed =>
      rcases List.mem_append.mp hp with hp | hp
      · exact .inl (hskipped p hp)
      · obtain rfl := List.mem_singleton.mp hp
        exact .inr (.inr ⟨_, hfailed, rfl⟩)

theorem Advances.of_found (h : Advances fs candidates turns (.ok (some p)) rest) :
    p ∈ turns ∧ fs.isYaml p = .ok true := by
  cases h with
  | found _ hfound => exact ⟨by simp, hfound⟩

theorem Advances.of_failed {s : Stop} (h : Advances fs candidates turns (.error s) rest) :
    ∃ p ∈ turns, ∃ i, fs.isYaml p = .error i ∧ s = .incident i := by
  cases h with
  | @failed _ _ p i _ hfailed => exact ⟨p, by simp, i, hfailed, rfl⟩

/-- What a call owes to the candidates whose turn came in it. -/
structure Fair (fs : FileSystem) (turns : List Path) (answer : Except Stop (Option Path)) :
    Prop where
  found_mem : ∀ p, answer = .ok (some p) → p ∈ turns
  found_iff : ∀ p ∈ turns, answer = .ok (some p) ↔
    fs.isDirectory p = .ok false ∧ isYamlName p.name = true
  failed_iff : ∀ s, answer = .error s ↔
    ∃ p ∈ turns, ∃ i, fs.isDirectory p = .error i ∧ s = .incident i

theorem Advances.fair (h : Advances fs candidates turns answer rest) : Fair fs turns answer := by
  constructor
  · rintro p rfl
    exact h.of_found.1
  · intro p hp
    rw [← FileSystem.isYaml_eq_true_iff]
    constructor
    · rintro rfl
      exact h.of_found.2
    · intro hyaml
      rcases h.turn hp with hskip | ⟨-, hanswer⟩ | ⟨i, hfailed, -⟩
      · simp [hskip] at hyaml
      · exact hanswer
      · simp [hfailed] at hyaml
  · intro s
    simp only [← FileSystem.isYaml_eq_error_iff]
    constructor
    · rintro rfl
      exact h.of_failed
    · rintro ⟨p, hp, i, hi, rfl⟩
      rcases h.turn hp with hskip | ⟨hfound, -⟩ | ⟨i', hfailed, hanswer⟩
      · simp [hskip] at hi
      · simp [hfound] at hi
      · rw [hfailed] at hi
        rw [hanswer, Except.error.inj hi]

theorem Advances.append_prefix (h : Advances fs candidates turns answer rest) :
    turns ++ rest <+: candidates := by
  cases h with
  | ended => simp
  | found => simp
  | @failed skipped rest p => exact ⟨rest, by simp⟩

theorem Advances.append_eq (h : Advances fs candidates turns answer rest)
    (hanswer : ∀ s, answer ≠ .error s) : turns ++ rest = candidates := by
  cases h with
  | ended => simp
  | found => simp
  | failed => exact absurd rfl (hanswer _)

theorem Advances.rest_eq_nil (h : Advances fs candidates turns answer rest)
    (hanswer : ∀ p, answer ≠ .ok (some p)) : rest = [] := by
  cases h with
  | found => exact absurd rfl (hanswer _)
  | _ => rfl

end

/-! ## Calls and what happens between them -/

/-- A call for the next file, with the file system and the discovery as they are at that moment. -/
structure Call where
  fs : FileSystem
  discovery : Discovery

namespace Call

def answer (c : Call) : Except Stop (Option Path) := (c.discovery.next c.fs).1

def turns (c : Call) : List Path := c.discovery.turns c.fs

/-- Whether a call finds no file, since there is no other or something stopped the discovery. -/
def IsLast (c : Call) : Prop := ∀ p, c.answer ≠ .ok (some p)

def found? (c : Call) : Option Path :=
  match c.answer with
  | .ok found => found
  | .error _ => none

theorem found?_eq_some_iff (c : Call) (p : Path) :
    c.found? = some p ↔ c.answer = .ok (some p) := by
  unfold found?
  cases c.answer <;> simp

end Call

inductive Happening
  | change (fs : FileSystem)
  | next

/-- The calls in a course of happenings, each made in the file system that the changes before it
have left. -/
def calls (fs : FileSystem) (d : Discovery) : List Happening → List Call
  | [] => []
  | .change fs' :: later => calls fs' d later
  | .next :: later => ⟨fs, d⟩ :: calls fs (d.next fs).2 later

/-- How some calls, one after the other, use up some candidates. -/
structure Account (candidates : List Path) (calls : List Call) : Prop where
  fair : ∀ c ∈ calls, Fair c.fs c.turns c.answer
  in_order : calls.flatMap Call.turns <+: candidates
  none_left : (∃ c ∈ calls, c.answer = .ok none) → (∀ c ∈ calls, ∀ s, c.answer ≠ .error s) →
    calls.flatMap Call.turns = candidates
  final : calls.Pairwise fun c c' => c.IsLast → c'.answer = .ok none ∧ c'.turns = []

variable {candidates rest : List Path} {c : Call} {later : List Call}

/-- Where no candidates are left, no turn comes any more. -/
theorem Account.ended (h : Account [] later) (hc : c ∈ later) :
    c.answer = .ok none ∧ c.turns = [] := by
  have hturns : c.turns = [] :=
    List.flatMap_eq_nil_iff.mp (List.prefix_nil.mp h.in_order) c hc
  have hfair := h.fair c hc
  refine ⟨?_, hturns⟩
  cases hanswer : c.answer with
  | error s =>
      obtain ⟨p, hp, -⟩ := (hfair.failed_iff s).mp hanswer
      simp [hturns] at hp
  | ok found =>
      cases found with
      | none => rfl
      | some p =>
          have hp := hfair.found_mem p hanswer
          simp [hturns] at hp

theorem Account.cons (h : Advances c.fs candidates c.turns c.answer rest)
    (hlater : Account rest later) : Account candidates (c :: later) := by
  constructor
  · exact List.forall_mem_cons.mpr ⟨h.fair, hlater.fair⟩
  · have hmore : c.turns ++ later.flatMap Call.turns <+: c.turns ++ rest :=
      (List.prefix_append_right_inj c.turns).mpr hlater.in_order
    exact hmore.trans h.append_prefix
  · intro hnone herror
    have hsplit := h.append_eq (herror c (by simp))
    have hrest : later.flatMap Call.turns = rest := by
      by_cases hlast : c.answer = .ok none
      · obtain rfl : rest = [] := h.rest_eq_nil (by simp [hlast])
        exact List.prefix_nil.mp hlater.in_order
      · refine hlater.none_left ?_ fun c' hc' => herror c' (by simp [hc'])
        obtain ⟨c', hc', hanswer⟩ := hnone
        rcases List.mem_cons.mp hc' with rfl | hc'
        · exact absurd hanswer hlast
        · exact ⟨c', hc', hanswer⟩
    rw [List.flatMap_cons, hrest, hsplit]
  · refine List.pairwise_cons.mpr ⟨?_, hlater.final⟩
    intro c' hc' hlast
    obtain rfl := h.rest_eq_nil hlast
    exact hlater.ended hc'

theorem account_pending (fs : FileSystem) (candidates : List Path) (happenings : List Happening) :
    Account candidates (calls fs (.pending candidates) happenings) := by
  induction happenings generalizing fs candidates with
  | nil => exact ⟨by simp [calls], by simp [calls], by simp [calls], .nil⟩
  | cons happening later ih =>
      cases happening with
      | change fs' => exact ih fs' candidates
      | next =>
          obtain ⟨rest, hrest, hadvances⟩ := nextOf_advances fs candidates
          have hlater := ih fs rest
          rw [← hrest] at hlater
          exact .cons (c := ⟨fs, .pending candidates⟩) hadvances hlater

/-- The first call of a discovery is made with the discovery as it was begun. -/
theorem calls_eq_cons {fs : FileSystem} {d : Discovery} {happenings : List Happening}
    (h : calls fs d happenings = c :: later) :
    c.discovery = d ∧ ∃ rest, later = calls c.fs (d.next c.fs).2 rest := by
  induction happenings generalizing fs with
  | nil => simp [calls] at h
  | cons happening more ih =>
      cases happening with
      | change fs' => exact ih h
      | next =>
          obtain ⟨rfl, rfl⟩ := List.cons.inj h
          exact ⟨rfl, more, rfl⟩

theorem found_sublist_turns (fair : ∀ c ∈ later, Fair c.fs c.turns c.answer) :
    (later.filterMap Call.found?).Sublist (later.flatMap Call.turns) := by
  induction later with
  | nil => exact .slnil
  | cons c more ih =>
      obtain ⟨hc, hmore⟩ := List.forall_mem_cons.mp fair
      rw [List.flatMap_cons]
      cases hfound : c.found? with
      | none =>
          rw [List.filterMap_cons_none hfound]
          exact (ih hmore).trans (List.sublist_append_right _ _)
      | some p =>
          rw [List.filterMap_cons_some hfound]
          have hp : p ∈ c.turns := hc.found_mem p ((c.found?_eq_some_iff p).mp hfound)
          exact (List.singleton_sublist.mpr hp).append (ih hmore)

/-- Every call after the first one looks at nothing but the candidates whose turn comes in it. -/
theorem later_looks {fs : FileSystem} {candidates : List Path} {happenings : List Happening}
    (hc : c ∈ calls fs (.pending candidates) happenings) {fs' : FileSystem}
    (tests : ∀ p ∈ c.turns, fs'.isDirectory p = c.fs.isDirectory p) :
    c.discovery.next fs' = c.discovery.next c.fs := by
  induction happenings generalizing fs candidates with
  | nil => simp [calls] at hc
  | cons happening later ih =>
      cases happening with
      | change fs'' => exact ih hc
      | next =>
          obtain ⟨rest, hrest, -⟩ := nextOf_advances fs candidates
          rcases List.mem_cons.mp hc with rfl | hc
          · exact nextOf_congr tests
          · have hnext : (Discovery.next fs (.pending candidates)).2 = .pending rest := hrest
            rw [hnext] at hc
            exact ih hc

/-- Whatever happens to the file system between the calls for its files, a discovery keeps to the
entries that the directories in scope list at the first call: they are its candidates, each of them
has its turn at most once and in order, and it is found exactly if it counts at the moment of its
turn.  So the files found are strictly increasing and come from that listing.  After the last file,
and after an error, there is no other. -/
theorem calls_keep_snapshot {fs₀ : FileSystem} {directory : Path} {recursive : Bool}
    {happenings : List Happening} {first : Call} {later : List Call}
    (h : calls fs₀ (.fresh directory recursive) happenings = first :: later)
    (hfs : first.fs.WellFormed) :
    (∃ d r, first.fs.Scanned directory recursive d ∧ first.fs.list d = .error r ∧
      first.answer = .error (FileSystem.listingStop r d) ∧
      ∀ c ∈ later, c.answer = .ok none ∧ c.turns = []) ∨
    ∃ snapshot : List Path,
      (∀ d, first.fs.Scanned directory recursive d → ∃ names, first.fs.list d = .ok names) ∧
      (∀ q, q ∈ snapshot ↔ ∃ d names name, first.fs.Scanned directory recursive d ∧
        first.fs.list d = .ok names ∧ name ∈ names ∧ q = d.child name) ∧
      snapshot.Pairwise (fun p q => p.letters < q.letters) ∧
      Account snapshot (first :: later) ∧
      ((first :: later).filterMap Call.found?).Sublist snapshot ∧
      ((first :: later).filterMap Call.found?).Pairwise (fun p q => p.letters < q.letters) ∧
      ∀ c ∈ later, ∀ fs' : FileSystem, (∀ p ∈ c.turns, fs'.isDirectory p = c.fs.isDirectory p) →
        c.discovery.next fs' = c.discovery.next c.fs := by
  obtain ⟨hfirst, more, hlater⟩ := calls_eq_cons h
  obtain ⟨fs, d⟩ := first
  obtain rfl : d = .fresh directory recursive := hfirst
  obtain ⟨result, hsurvey, hcandidates⟩ := FileSystem.candidates_eq hfs directory recursive
  cases result with
  | error e =>
      obtain ⟨d, r⟩ := e
      simp only at hcandidates
      have hnext : Discovery.next fs (.fresh directory recursive) =
          (.error (FileSystem.listingStop r d), finished) := by
        simp [Discovery.next, hcandidates]
      refine .inl ⟨d, r, hsurvey.1, hsurvey.2, by simp [Call.answer, hnext], ?_⟩
      intro c hc
      rw [hlater, hnext] at hc
      exact (account_pending fs [] more).ended hc
  | ok ps =>
      simp only at hcandidates
      have hnext : Discovery.next fs (.fresh directory recursive) = nextOf fs (Path.sort ps) := by
        simp [Discovery.next, hcandidates]
      have hturns :
          Discovery.turns fs (.fresh directory recursive) = turnsOf fs (Path.sort ps) := by
        simp [Discovery.turns, hcandidates]
      obtain ⟨rest, hrest, hadvances⟩ := nextOf_advances fs (Path.sort ps)
      rw [hnext, hrest] at hlater
      have hsorted := FileSystem.candidates_sorted hfs hcandidates
      have haccount : Account (Path.sort ps) (⟨fs, .fresh directory recursive⟩ :: later) := by
        have hmore : Account rest later := hlater ▸ account_pending fs rest more
        refine .cons ?_ hmore
        simpa only [Call.turns, Call.answer, hturns, hnext] using hadvances
      have hfound := (found_sublist_turns haccount.fair).trans haccount.in_order.sublist
      refine .inr ⟨Path.sort ps, hsurvey.1, fun q => ?_, hsorted, haccount, hfound,
        hsorted.sublist hfound, fun c hc fs' tests => ?_⟩
      · rw [(Path.sort_perm ps).mem_iff, hsurvey.2 q, false_or]
      · rw [hlater] at hc
        exact later_looks hc tests

/-- A directory whose files come and go: `b.yaml` becomes a directory and others are added after
the first call. -/
def sampleCourse : List Happening :=
  [.change ⟨.directory .ofDirectory [("c.yaml", .file .ofFile []), ("b.yaml", .file .ofFile []),
      ("a.yaml", .file .ofFile []), ("d.txt", .file .ofFile [])]⟩,
    .next,
    .change ⟨.directory .ofDirectory [("b.yaml", .directory .ofDirectory []),
      ("bb.yaml", .file .ofFile []), ("c.yaml", .file .ofFile [])]⟩,
    .next, .next, .next]

theorem sampleCourse_keeps_snapshot : ∃ first later,
    calls ⟨.directory .ofDirectory []⟩ (.fresh ⟨.slash, []⟩ false) sampleCourse = first :: later ∧
      first.fs.WellFormed ∧
      (first :: later).map Call.found? =
        [some ⟨.slash, ["a.yaml"]⟩, some ⟨.slash, ["c.yaml"]⟩, none, none] ∧
      ∃ snapshot, Account snapshot (first :: later) ∧
        ((first :: later).filterMap Call.found?).Sublist snapshot := by
  obtain ⟨first, later, hcalls⟩ : ∃ first later, calls ⟨.directory .ofDirectory []⟩
      (.fresh ⟨.slash, []⟩ false) sampleCourse = first :: later := ⟨_, _, rfl⟩
  have hfound : (first :: later).map Call.found? =
      [some ⟨.slash, ["a.yaml"]⟩, some ⟨.slash, ["c.yaml"]⟩, none, none] := by
    rw [← hcalls]
    decide +kernel
  have hfs : first.fs.WellFormed := by
    obtain ⟨rfl, -⟩ := List.cons.inj hcalls
    decide +kernel
  refine ⟨first, later, hcalls, hfs, hfound, ?_⟩
  rcases calls_keep_snapshot hcalls hfs with
    ⟨d, r, -, -, hanswer, -⟩ | ⟨snapshot, -, -, -, haccount, hsublist, -⟩
  · obtain ⟨hfirst, -⟩ := List.cons.inj hfound
    have hsame := hanswer.symm.trans ((first.found?_eq_some_iff _).mp hfirst)
    cases hsame
  · exact ⟨snapshot, haccount, hsublist⟩

end Discovery

end YamlCheck
