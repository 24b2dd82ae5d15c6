import Mathlib.Data.List.Induction
import YamlCheck.FileSystem.Canonical
import YamlCheck.Proofs.FileSystem.PathText
import YamlCheck.Proofs.FileSystem.Walking

/-!
# Canonical locations

A location is canonical if everything on the way to it is there and is no link.  The operating
system goes straight to such a location, so what is found at a name below it is decided by one turn
there.  Tracing starts at a canonical location and keeps to canonical ones.
-/

namespace YamlCheck

namespace Path

/-- Whether a piece of a path names an entry. -/
def isPlain (piece : String) : Bool := isName piece && piece != ".."

theorem isPlain_iff {piece : String} :
    isPlain piece = true ↔ piece ≠ "" ∧ piece ≠ "." ∧ piece ≠ ".." := by
  simp [isPlain, isName, and_assoc]

theorem isName_of_isPlain {piece : String} (h : isPlain piece = true) : isName piece = true := by
  rw [isPlain, Bool.and_eq_true] at h
  exact h.1

end Path

namespace FileSystem

open YamlCheck.Path

variable {fs : FileSystem}

/-! ## Canonical locations -/

/-- Each name on the way to a location is there, is a plain one and is no link. -/
def Canonical (fs : FileSystem) (loc : Location) : Prop :=
  ∀ front name, front ++ [name] <+: loc → isPlain name = true ∧
    ∃ n, fs.lookUp false (pathOf (front ++ [name])) = .ok n ∧ ∀ target, n ≠ .link target

namespace Canonical

variable {loc : Location} {name : String}

theorem nil : Canonical fs [] := by
  intro front name h
  simp at h

theorem of_prefix {front : Location} (h : Canonical fs loc) (hfront : front <+: loc) :
    Canonical fs front :=
  fun way name hway => h way name (hway.trans hfront)

theorem dropLast (h : Canonical fs loc) : Canonical fs loc.dropLast :=
  h.of_prefix (List.dropLast_prefix loc)

theorem startOf (h : Canonical fs loc) (target : String) : Canonical fs (startOf loc target) := by
  unfold FileSystem.startOf
  split
  · exact h
  · exact nil

theorem snoc {n : Node} (h : Canonical fs loc) (hname : isPlain name = true)
    (hn : fs.lookUp false (pathOf (loc ++ [name])) = .ok n) (hlink : ∀ target, n ≠ .link target) :
    Canonical fs (loc ++ [name]) := by
  intro front other hleading
  rcases List.prefix_concat_iff.mp hleading with heq | hleading
  · obtain ⟨rfl, hother⟩ := List.append_inj' heq rfl
    obtain rfl : other = name := List.singleton_inj.mp hother
    exact ⟨hname, n, hn, hlink⟩
  · exact h front other hleading

theorem last (h : Canonical fs (loc ++ [name])) :
    isPlain name = true ∧
      ∃ n, fs.lookUp false (pathOf (loc ++ [name])) = .ok n ∧ ∀ target, n ≠ .link target :=
  h loc name (List.prefix_refl _)

theorem isPlain_of_mem (h : Canonical fs loc) (hname : name ∈ loc) : isPlain name = true := by
  obtain ⟨front, back, rfl⟩ := List.append_of_mem hname
  have hleading : front ++ [name] <+: front ++ name :: back := ⟨back, by simp⟩
  exact (h front name hleading).1

end Canonical

/-! ## Turns -/

section Turns

variable {loc next : Location} {piece target : String}

theorem directory_of_turn {t : Turn} (h : fs.turn loc piece = t) (ht : ∀ r, t ≠ .refused r) :
    ∃ mode entries, fs.node? loc = some (.directory mode entries) := by
  subst h
  cases hnode : fs.node? loc with
  | none => exact absurd (by simp [turn, hnode]) (ht .missing)
  | some n =>
      cases n with
      | directory mode entries => exact ⟨mode, entries, rfl⟩
      | _ => exact absurd (by simp [turn, hnode]) (ht .notDirectory)

/-- A piece that names an entry leads to what is at this name, if names may be looked up. -/
theorem turn_plain {mode : Mode} {entries : List (String × Node)}
    (hnode : fs.node? loc = some (.directory mode entries)) (hpiece : isPlain piece = true) :
    fs.turn loc piece =
      if !mode.search then .refused .denied
      else if nameLimit < byteLength piece then .refused .nameTooLong
      else match fs.node? (loc ++ [piece]) with
        | none => .vacant
        | some (.link target) => .link target
        | some _ => .onward (loc ++ [piece]) := by
  obtain ⟨hempty, hdot, hup⟩ := isPlain_iff.mp hpiece
  rw [node?_snoc hnode]
  cases hentry : Node.entryNamed? entries piece with
  | none => simp [turn, hnode, hempty, hdot, hup, hentry]
  | some n => cases n <;> simp [turn, hnode, hempty, hdot, hup, hentry]

theorem turn_idle (h : fs.turn loc piece = .onward next) (hpiece : isName piece = false) :
    next = loc := by
  obtain ⟨mode, entries, hnode⟩ := directory_of_turn h (by simp)
  have hcases : piece = "" ∨ piece = "." := by
    rw [isName, Bool.and_eq_false_iff, bne_eq_false_iff_eq, bne_eq_false_iff_eq] at hpiece
    exact hpiece
  rcases hcases with rfl | rfl
  · simpa [turn, hnode] using h.symm
  · cases hsearch : mode.search with
    | false => simp [turn, hnode, hsearch] at h
    | true => simpa [turn, hnode, hsearch] using h.symm

theorem turn_up (h : fs.turn loc ".." = .onward next) : next = loc.dropLast := by
  obtain ⟨mode, entries, hnode⟩ := directory_of_turn h (by simp)
  cases hsearch : mode.search with
  | false => simp [turn, hnode, hsearch] at h
  | true => simpa [turn, hnode, hsearch] using h.symm

theorem turn_onward (h : fs.turn loc piece = .onward next) (hpiece : isPlain piece = true) :
    next = loc ++ [piece] ∧ ∃ n, fs.node? next = some n ∧ ∀ target, n ≠ .link target := by
  obtain ⟨mode, entries, hnode⟩ := directory_of_turn h (by simp)
  rw [turn_plain hnode hpiece] at h
  split at h <;> try cases h
  split at h <;> try cases h
  split at h
  · cases h
  · cases h
  · rename_i n hlink hn
    cases h
    exact ⟨rfl, n, hn, hlink⟩

theorem isPlain_of_turn_link (h : fs.turn loc piece = .link target) : isPlain piece = true := by
  obtain ⟨mode, entries, hnode⟩ := directory_of_turn h (by simp)
  rw [isPlain_iff]
  refine ⟨?_, ?_, ?_⟩
  · rintro rfl
    simp [turn, hnode] at h
  · rintro rfl
    cases hsearch : mode.search <;> simp [turn, hnode, hsearch] at h
  · rintro rfl
    cases hsearch : mode.search <;> simp [turn, hnode, hsearch] at h

theorem turn_link (h : fs.turn loc piece = .link target) :
    fs.node? (loc ++ [piece]) = some (.link target) := by
  obtain ⟨mode, entries, hnode⟩ := directory_of_turn h (by simp)
  rw [turn_plain hnode (isPlain_of_turn_link h)] at h
  split at h <;> try cases h
  split at h <;> try cases h
  split at h
  · cases h
  · rename_i other hother
    cases h
    exact hother
  · cases h

end Turns

/-! ## Straight ways -/

theorem walk_of_lookUp {p : Path} {n : Node} {followLast : Bool}
    (h : fs.lookUp followLast p = .ok n) :
    (∀ name ∈ p.names, '\x00' ∉ name.toList) ∧ byteLength p.text ≤ pathLimit ∧
      ∃ stop, fs.walk followLast linkLimit [] p.names = .ok (.there stop) ∧
        fs.node? stop = some n := by
  simp only [lookUp, bind, Except.bind, locate, find] at h
  by_cases hnul : (p.names.any fun name => name.toList.contains '\x00') = true
  · simp only [hnul, ↓reduceIte, reduceCtorEq] at h
  by_cases hlong : pathLimit < byteLength p.text
  · simp only [hnul, hlong, ↓reduceIte, Bool.false_eq_true, reduceCtorEq] at h
  simp only [hnul, hlong, ↓reduceIte, Bool.false_eq_true] at h
  cases hwalk : fs.walk followLast linkLimit [] p.names with
  | error r => simp [hwalk] at h
  | ok found =>
      cases found with
      | vacant directory name => simp [hwalk] at h
      | there stop =>
          simp only [hwalk] at h
          cases hnode : fs.node? stop with
          | none => simp [hnode] at h
          | some m =>
              obtain rfl : m = n := by simpa [hnode] using h
              exact ⟨by simpa using hnul, by omega, stop, rfl, hnode⟩

theorem locate_of_walk {p : Path} {loc : Location} {followLast : Bool}
    (hnul : ∀ name ∈ p.names, '\x00' ∉ name.toList) (hshort : byteLength p.text ≤ pathLimit)
    (h : fs.walk followLast linkLimit [] p.names = .ok (.there loc)) :
    fs.locate followLast p = .ok loc := by
  have hfree : (p.names.any fun name => name.toList.contains '\x00') = false := by
    simpa using hnul
  have hlength : ¬ pathLimit < byteLength p.text := Nat.not_lt.mpr hshort
  simp only [locate, find, hfree, hlength, Bool.false_eq_true, ↓reduceIte, h]

theorem walk_straight {loc : Location}
    (h : ∀ front name, front ++ [name] <+: loc → fs.turn front name = .onward (front ++ [name]))
    (followLast : Bool) (links : Nat) (rest : List String) :
    fs.walk followLast links [] (loc ++ rest) = fs.walk followLast links loc rest := by
  induction loc using List.reverseRecOn generalizing rest with
  | nil => rfl
  | append_singleton loc name ih =>
      have hlast : fs.turn loc name = .onward (loc ++ [name]) := h loc name (List.prefix_refl _)
      have hfront := ih fun front other hleading =>
        h front other (hleading.trans (List.prefix_append loc [name]))
      rw [List.append_assoc, hfront]
      simp only [List.cons_append, List.nil_append, walk_cons, hlast]

namespace Canonical

variable {loc : Location}

theorem turn_eq (h : Canonical fs loc) {front : Location} {name : String}
    (hleading : front ++ [name] <+: loc) : fs.turn front name = .onward (front ++ [name]) := by
  induction loc using List.reverseRecOn generalizing front name with
  | nil => simp at hleading
  | append_singleton loc last ih =>
      have hloc : Canonical fs loc := h.of_prefix (List.prefix_append loc [last])
      rcases List.prefix_concat_iff.mp hleading with heq | hleading
      case inr => exact ih hloc hleading
      obtain ⟨rfl, hname⟩ := List.append_inj' heq rfl
      obtain rfl : name = last := List.singleton_inj.mp hname
      obtain ⟨hplain, n, hn, hlink⟩ := h.last
      obtain ⟨-, -, stop, hwalk, hnode⟩ := walk_of_lookUp hn
      have hstraight : fs.walk false linkLimit [] (front ++ [name]) =
          fs.walk false linkLimit front [name] := walk_straight (fun _ _ => ih hloc) _ _ _
      rw [show (pathOf (front ++ [name])).names = front ++ [name] from rfl, hstraight,
        walk_cons] at hwalk
      cases hturn : fs.turn front name with
      | onward next =>
          obtain ⟨rfl, -⟩ := turn_onward hturn hplain
          rfl
      | link target =>
          simp only [hturn, List.isEmpty_nil, Bool.not_false, Bool.and_self, ↓reduceIte,
            Except.ok.injEq, Found.there.injEq] at hwalk
          rw [← hwalk, turn_link hturn] at hnode
          exact absurd (Option.some.inj hnode).symm (hlink target)
      | vacant => simp [hturn] at hwalk
      | refused r => simp [hturn] at hwalk

/-- The operating system goes straight to a canonical location, whatever comes behind it. -/
theorem walk_eq (h : Canonical fs loc) (followLast : Bool) (links : Nat) (rest : List String) :
    fs.walk followLast links [] (loc ++ rest) = fs.walk followLast links loc rest :=
  walk_straight (fun _ _ => h.turn_eq) followLast links rest

theorem nulFree (h : Canonical fs loc) : ∀ name ∈ loc, '\x00' ∉ name.toList := by
  intro name hname
  obtain ⟨front, back, rfl⟩ := List.append_of_mem hname
  obtain ⟨-, n, hn, -⟩ := h front name ⟨back, by simp⟩
  exact (walk_of_lookUp hn).1 name (by simp [pathOf])

theorem byteLength_le (h : Canonical fs loc) : byteLength (pathOf loc).text ≤ pathLimit := by
  cases loc using List.reverseRecOn with
  | nil => decide
  | append_singleton front name =>
      obtain ⟨-, n, hn, -⟩ := h.last
      exact (walk_of_lookUp hn).2.1

theorem locate_eq (h : Canonical fs loc) (followLast : Bool) :
    fs.locate followLast (pathOf loc) = .ok loc := by
  have hwalk := h.walk_eq followLast linkLimit []
  rw [List.append_nil, walk_nil] at hwalk
  exact locate_of_walk h.nulFree h.byteLength_le hwalk

theorem node?_isSome (h : Canonical fs loc) : ∃ n, fs.node? loc = some n := by
  cases loc using List.reverseRecOn with
  | nil => exact ⟨fs.root, rfl⟩
  | append_singleton front name =>
      obtain ⟨hplain, -⟩ := h.last
      obtain ⟨-, n, hnode, -⟩ := turn_onward (h.turn_eq (List.prefix_refl _)) hplain
      exact ⟨n, hnode⟩

/-- What is found at a name below a canonical location is at this very location. -/
theorem node?_of_lookUp {piece : String} {n : Node} (h : Canonical fs loc)
    (hpiece : isPlain piece = true) (hn : fs.lookUp false (pathOf (loc ++ [piece])) = .ok n) :
    fs.node? (loc ++ [piece]) = some n := by
  obtain ⟨-, -, stop, hwalk, hnode⟩ := walk_of_lookUp hn
  rw [show (pathOf (loc ++ [piece])).names = loc ++ [piece] from rfl, h.walk_eq, walk_cons] at hwalk
  cases hturn : fs.turn loc piece with
  | onward next =>
      obtain ⟨rfl, -⟩ := turn_onward hturn hpiece
      simp only [hturn, walk_nil, Except.ok.injEq, Found.there.injEq] at hwalk
      rw [hwalk, hnode]
  | link target =>
      simp only [hturn, List.isEmpty_nil, Bool.not_false, Bool.and_self, ↓reduceIte,
        Except.ok.injEq, Found.there.injEq] at hwalk
      rw [hwalk, hnode]
  | vacant => simp [hturn] at hwalk
  | refused r => simp [hturn] at hwalk

/-- What a turn at a canonical location leads to is found by its path, unless this is too long. -/
theorem lookUp_eq {piece : String} {n : Node} (h : Canonical fs loc)
    (hnul : '\x00' ∉ piece.toList) (hturn : fs.turn loc piece = .onward (loc ++ [piece]) ∨
      ∃ target, fs.turn loc piece = .link target)
    (hn : fs.node? (loc ++ [piece]) = some n) :
    fs.lookUp false (pathOf (loc ++ [piece])) =
      if pathLimit < byteLength (pathOf (loc ++ [piece])).text then .error .nameTooLong
      else .ok n := by
  have hnames : (pathOf (loc ++ [piece])).names = loc ++ [piece] := rfl
  have hfree : (loc ++ [piece]).any (fun name => name.toList.contains '\x00') = false := by
    rw [List.any_eq_false]
    intro name hname
    rw [List.mem_append, List.mem_singleton] at hname
    rcases hname with hname | rfl
    · simpa using h.nulFree name hname
    · simpa using hnul
  have hwalk : fs.walk false linkLimit [] (loc ++ [piece]) = .ok (.there (loc ++ [piece])) := by
    rw [h.walk_eq, walk_cons]
    rcases hturn with hturn | ⟨target, hturn⟩
    · simp only [hturn, walk_nil]
    · simp only [hturn, List.isEmpty_nil, Bool.not_false, Bool.and_self, ↓reduceIte]
  by_cases hlong : pathLimit < byteLength (pathOf (loc ++ [piece])).text
  · simp only [lookUp, locate, find, hnames, hfree, hlong, bind, Except.bind, ↓reduceIte,
      Bool.false_eq_true]
  · simp only [lookUp, locate, find, hnames, hfree, hlong, bind, Except.bind, ↓reduceIte,
      Bool.false_eq_true, hwalk, hn]

end Canonical

/-- Every name in a well-formed file system is one that a path can ask for. -/
theorem isEntryName_of_node? {loc : Location} {name : String} {n : Node} (hfs : fs.WellFormed)
    (h : fs.node? (loc ++ [name]) = some n) : isEntryName name = true := by
  unfold node? at h
  rw [Node.get?_append, Option.bind_eq_some_iff] at h
  obtain ⟨here, hhere, hname⟩ := h
  cases here with
  | directory mode entries =>
      have hentries : Node.wellFormedIn entries = true := by
        simpa [Node.wellFormed] using Node.wellFormed_get? hfs hhere
      cases hentry : Node.entryNamed? entries name with
      | none => simp [Node.get?, hentry] at hname
      | some m => exact (Node.wellFormed_of_mem hentries (Node.mem_of_entryNamed? hentry)).1
  | _ => simp [Node.get?] at hname

/-- All names on the way to a node are names of entries. -/
theorem isEntryName_of_mem (hfs : fs.WellFormed) {loc : Location} {n : Node}
    (hnode : fs.node? loc = some n) {name : String} (hname : name ∈ loc) :
    isEntryName name = true := by
  obtain ⟨front, back, rfl⟩ := List.append_of_mem hname
  have hhere : ∃ m, fs.node? (front ++ [name]) = some m := by
    unfold node? at hnode ⊢
    rw [List.append_cons, Node.get?_append, Option.bind_eq_some_iff] at hnode
    obtain ⟨m, hm, -⟩ := hnode
    exact ⟨m, hm⟩
  obtain ⟨m, hm⟩ := hhere
  exact isEntryName_of_node? hfs hm

theorem isName_of_isEntryName {name : String} (h : isEntryName name = true) :
    isName name = true ∧ '/' ∉ name.toList := by
  simp only [isEntryName, Bool.and_eq_true, Bool.not_eq_true'] at h
  exact ⟨h.1.1.1.1, by simpa using h.1.1.2⟩

theorem Canonical.legible {loc : Location} (h : Canonical fs loc) (hfs : fs.WellFormed) :
    (pathOf loc).Legible := by
  obtain ⟨n, hnode⟩ := h.node?_isSome
  exact fun name hname => isName_of_isEntryName (isEntryName_of_mem hfs hnode hname)

/-- The path of a canonical location, read anew from its text. -/
theorem Canonical.ofText_text {loc : Location} (h : Canonical fs loc) (hfs : fs.WellFormed) :
    Path.ofText (pathOf loc).text = pathOf loc :=
  (h.legible hfs).ofText_text

end FileSystem

end YamlCheck
