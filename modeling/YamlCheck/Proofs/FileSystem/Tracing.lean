import Mathlib.Data.List.Basic
import Mathlib.Data.List.Perm.Subperm
import Mathlib.Data.Nat.Find
import YamlCheck.Proofs.FileSystem.Canonical
import YamlCheck.Run

/-!
# Tracing paths

What a strict tracing comes to is canonical, and tracing it again changes nothing.  Links whose
targets are being traced are all different, so as many levels as there are links are enough.  And
where the operating system follows a path, tracing comes to the same location: the links that it
enters are followed there too, so each of them can do with fewer links than the one it lies in, and
none lies within itself.
-/

namespace YamlCheck

namespace Node

mutual

/-- The places of the links in a tree. -/
def linkPlaces : Node → List Location
  | .link _ => [[]]
  | .directory _ entries => linkPlacesIn entries
  | _ => []

def linkPlacesIn : List (String × Node) → List Location
  | [] => []
  | (name, n) :: rest => (linkPlaces n).map (name :: ·) ++ linkPlacesIn rest

end

mutual

theorem length_linkPlaces (n : Node) : n.linkPlaces.length = n.countLinks := by
  cases n with
  | directory mode entries =>
      simp only [linkPlaces, countLinks]
      exact length_linkPlacesIn entries
  | _ => simp [linkPlaces, countLinks]

theorem length_linkPlacesIn (entries : List (String × Node)) :
    (linkPlacesIn entries).length = countLinksIn entries := by
  match entries with
  | [] => rfl
  | (name, n) :: rest =>
      simp only [linkPlacesIn, countLinksIn, List.length_append, List.length_map]
      rw [length_linkPlaces n, length_linkPlacesIn rest]

end

theorem mem_linkPlacesIn {entries : List (String × Node)} {name : String} {n : Node}
    {loc : Location} (hmem : (name, n) ∈ entries) (hloc : loc ∈ n.linkPlaces) :
    name :: loc ∈ linkPlacesIn entries := by
  induction entries with
  | nil => simp at hmem
  | cons e rest ih =>
      obtain ⟨other, m⟩ := e
      rw [linkPlacesIn, List.mem_append]
      rcases List.mem_cons.mp hmem with heq | hmem
      · cases heq
        exact .inl (List.mem_map_of_mem hloc)
      · exact .inr (ih hmem)

theorem mem_linkPlaces {n : Node} {loc : Location} {target : String}
    (h : n.get? loc = some (.link target)) : loc ∈ n.linkPlaces := by
  induction loc generalizing n with
  | nil =>
      obtain rfl : n = .link target := by simpa [get?] using h
      simp [linkPlaces]
  | cons name loc ih =>
      cases n with
      | directory mode entries =>
          simp only [get?] at h
          cases hentry : entryNamed? entries name with
          | none => simp [hentry] at h
          | some m =>
              simp only [hentry] at h
              rw [linkPlaces]
              exact mem_linkPlacesIn (mem_of_entryNamed? hentry) (ih h)
      | _ => simp [get?] at h

end Node

namespace FileSystem

open YamlCheck.Path

variable {fs : FileSystem}

/-- What a tracing does with the target of a link, given how many levels of links there may be. -/
def inner (fs : FileSystem) (strict : Bool) :
    Nat → List Location → Location → List String → Tracing
  | 0 => fun inside _ _ => .looping (inside.headD []) []
  | levels + 1 => fs.traceIn strict levels

theorem traceIn_eq_traceWith (strict : Bool) (levels : Nat) :
    fs.traceIn strict levels = fs.traceWith strict (fs.inner strict levels) := by
  cases levels <;> rfl

section Steps

variable {into : List Location → Location → List String → Tracing} {inside : List Location}
  {loc : Location} {piece : String} {rest : List String}

theorem traceWith_nil : fs.traceWith true into inside loc [] = .done loc := by
  rw [traceWith]

theorem traceWith_idle (h : isName piece = false) :
    fs.traceWith true into inside loc (piece :: rest) = fs.traceWith true into inside loc rest := by
  rw [traceWith]
  simp only [h, Bool.not_false, ↓reduceIte]

theorem traceWith_up :
    fs.traceWith true into inside loc (".." :: rest) =
      fs.traceWith true into inside loc.dropLast rest := by
  rw [traceWith]
  rfl

/-- What becomes of a link and of the pieces behind it. -/
def traceLink (fs : FileSystem) (into : List Location → Location → List String → Tracing)
    (inside : List Location) (loc : Location) (piece target : String) (rest : List String) :
    Tracing :=
  if inside.contains (loc ++ [piece]) then
    .looping (loc ++ [piece]) (joinPieces (loc ++ [piece]) rest)
  else
    match into ((loc ++ [piece]) :: inside) (startOf loc target) (allPieces target.toList) with
    | .done loc => fs.traceWith true into inside loc rest
    | .looping link pieces => .looping link (joinPieces pieces rest)
    | .refused r loc => .refused r loc

theorem traceWith_plain (h : isPlain piece = true) :
    fs.traceWith true into inside loc (piece :: rest) =
      match fs.lookUp false (pathOf (loc ++ [piece])) with
      | .error r => .refused r (loc ++ [piece])
      | .ok (.link target) => fs.traceLink into inside loc piece target rest
      | .ok _ => fs.traceWith true into inside (loc ++ [piece]) rest := by
  rw [isPlain, Bool.and_eq_true, bne_iff_ne] at h
  rw [traceWith]
  simp only [h.1, h.2, beq_iff_eq, Bool.not_true, Bool.false_eq_true, ↓reduceIte, Bool.true_or]
  rfl

end Steps

theorem piece_cases (piece : String) :
    isName piece = false ∨ piece = ".." ∨ isPlain piece = true := by
  unfold isPlain
  cases hname : isName piece with
  | false => exact .inl rfl
  | true =>
      by_cases hup : piece = ".."
      · exact .inr (.inl hup)
      · exact .inr (.inr (by simp [hup]))

/-! ## What a tracing comes to -/

section Canonical

variable {into : List Location → Location → List String → Tracing} {inside : List Location}
  {loc stop : Location} {pieces : List String}

theorem traceWith_canonical
    (hinto : ∀ inside start pieces stop, Canonical fs start →
      into inside start pieces = .done stop →
      Canonical fs stop)
    (hloc : Canonical fs loc) (h : fs.traceWith true into inside loc pieces = .done stop) :
    Canonical fs stop := by
  induction pieces generalizing loc with
  | nil =>
      rw [traceWith_nil] at h
      cases h
      exact hloc
  | cons piece rest ih =>
      rcases piece_cases piece with hidle | rfl | hplain
      · rw [traceWith_idle hidle] at h
        exact ih hloc h
      · rw [traceWith_up] at h
        exact ih hloc.dropLast h
      rw [traceWith_plain hplain] at h
      cases hlook : fs.lookUp false (pathOf (loc ++ [piece])) with
      | error r => simp [hlook] at h
      | ok n =>
          rw [hlook] at h
          cases n with
          | link target =>
              simp only [traceLink] at h
              split at h
              · cases h
              cases htarget : into ((loc ++ [piece]) :: inside) (startOf loc target)
                  (allPieces target.toList) with
              | done mid =>
                  rw [htarget] at h
                  exact ih (hinto _ _ _ _ (hloc.startOf target) htarget) h
              | looping link pieces => simp [htarget] at h
              | refused r loc => simp [htarget] at h
          | _ => exact ih (hloc.snoc hplain hlook (by simp)) h

theorem traceIn_canonical {levels : Nat} (hloc : Canonical fs loc)
    (h : fs.traceIn true levels inside loc pieces = .done stop) : Canonical fs stop := by
  induction levels generalizing inside loc pieces stop with
  | zero =>
      rw [traceIn_eq_traceWith] at h
      exact traceWith_canonical (by simp [inner]) hloc h
  | succ levels ih =>
      rw [traceIn_eq_traceWith] at h
      exact traceWith_canonical (fun _ _ _ _ hstart => ih hstart) hloc h

/-- A canonical location is traced name by name to itself. -/
theorem traceWith_straight (h : Canonical fs (loc ++ pieces)) :
    fs.traceWith true into inside loc pieces = .done (loc ++ pieces) := by
  induction pieces generalizing loc with
  | nil => rw [traceWith_nil, List.append_nil]
  | cons name rest ih =>
      rw [List.append_cons] at h ⊢
      obtain ⟨hplain, n, hn, hlink⟩ := (h.of_prefix (List.prefix_append _ rest)).last
      rw [traceWith_plain hplain, hn]
      cases n with
      | link target => exact absurd rfl (hlink target)
      | _ => exact ih h

end Canonical

/-! ## Levels -/

/-- Two tracings that agree on the targets of links agree. -/
theorem traceWith_congr {into into' : List Location → Location → List String → Tracing}
    {inside : List Location}
    (hinto : ∀ start here target, Canonical fs start → fs.node? here = some (.link target) →
      here ∉ inside → into (here :: inside) start (allPieces target.toList) =
        into' (here :: inside) start (allPieces target.toList))
    (hcanonical : ∀ inside start pieces stop, Canonical fs start →
      into inside start pieces = .done stop → Canonical fs stop)
    {loc : Location} (hloc : Canonical fs loc) (pieces : List String) :
    fs.traceWith true into inside loc pieces = fs.traceWith true into' inside loc pieces := by
  induction pieces generalizing loc with
  | nil => rw [traceWith_nil, traceWith_nil]
  | cons piece rest ih =>
      rcases piece_cases piece with hidle | rfl | hplain
      · rw [traceWith_idle hidle, traceWith_idle hidle, ih hloc]
      · rw [traceWith_up, traceWith_up, ih hloc.dropLast]
      rw [traceWith_plain hplain, traceWith_plain hplain]
      cases hlook : fs.lookUp false (pathOf (loc ++ [piece])) with
      | error r => rfl
      | ok n =>
          cases n with
          | link target =>
              have hnode := hloc.node?_of_lookUp hplain hlook
              simp only [traceLink]
              by_cases hin : loc ++ [piece] ∈ inside
              · rw [if_pos (List.contains_iff_mem.mpr hin), if_pos (List.contains_iff_mem.mpr hin)]
              rw [if_neg (mt List.contains_iff_mem.mp hin),
                if_neg (mt List.contains_iff_mem.mp hin),
                ← hinto _ _ target (hloc.startOf target) hnode hin]
              cases htarget : into ((loc ++ [piece]) :: inside) (startOf loc target)
                  (allPieces target.toList) with
              | done mid => exact ih (hcanonical _ _ _ _ (hloc.startOf target) htarget)
              | looping link pieces => rfl
              | refused r loc => rfl
          | _ => exact ih (hloc.snoc hplain hlook (by simp))

/-- There are no more different places of links than links. -/
theorem length_le_countLinks {inside : List Location} (hnodup : inside.Nodup)
    (hlinks : ∀ here ∈ inside, ∃ target, fs.node? here = some (.link target)) :
    inside.length ≤ fs.root.countLinks := by
  have hsub : inside ⊆ fs.root.linkPlaces := by
    intro here hhere
    obtain ⟨target, htarget⟩ := hlinks here hhere
    exact Node.mem_linkPlaces htarget
  have hlength := (List.subperm_of_subset hnodup hsub).length_le
  rwa [Node.length_linkPlaces] at hlength

/-- More levels than there are links are of no use. -/
theorem traceIn_levels {levels : Nat} (more : Nat) {inside : List Location} {loc : Location}
    (hnodup : inside.Nodup)
    (hlinks : ∀ here ∈ inside, ∃ target, fs.node? here = some (.link target))
    (henough : fs.root.countLinks ≤ inside.length + levels) (hloc : Canonical fs loc)
    (pieces : List String) :
    fs.traceIn true (levels + more) inside loc pieces =
      fs.traceIn true levels inside loc pieces := by
  induction levels generalizing inside loc pieces with
  | zero =>
      rw [traceIn_eq_traceWith, traceIn_eq_traceWith]
      refine (traceWith_congr (fun start here target hstart hhere hout => ?_)
        (by simp [inner]) hloc pieces).symm
      have hlength := length_le_countLinks (List.nodup_cons.mpr ⟨hout, hnodup⟩)
        (List.forall_mem_cons.mpr ⟨⟨target, hhere⟩, hlinks⟩)
      rw [List.length_cons] at hlength
      omega
  | succ levels ih =>
      rw [Nat.add_right_comm, traceIn_eq_traceWith, traceIn_eq_traceWith]
      refine traceWith_congr (fun start here target hstart hhere hout => ?_)
        (fun _ _ _ _ hstart => traceIn_canonical hstart) hloc pieces
      have hcount : fs.root.countLinks ≤ (here :: inside).length + levels := by
        rw [List.length_cons]
        omega
      exact ih (List.nodup_cons.mpr ⟨hout, hnodup⟩)
        (List.forall_mem_cons.mpr ⟨⟨target, hhere⟩, hlinks⟩) hcount hstart _

/-! ## Tracing what the operating system follows -/

/-- A tracing has come to a location, unless it has had to look at something by a path that is too
long. -/
def Tracing.ComesTo (t : Tracing) (stop : Location) : Prop :=
  t = .done stop ∨
    ∃ far, t = .refused .nameTooLong far ∧ pathLimit < byteLength (pathOf far).text

/-- None of these links can be followed to its end with so many links. -/
def OutOfReach (fs : FileSystem) (links : Nat) (inside : List Location) : Prop :=
  ∀ front name stop, front ++ [name] ∈ inside → ¬ Reaches fs links front [name] stop

theorem OutOfReach.mono {links fewer : Nat} {inside : List Location}
    (h : OutOfReach fs links inside) (hle : fewer ≤ links) : OutOfReach fs fewer inside :=
  fun front name stop hmem hreaches => h front name stop hmem (hreaches.mono hle)

theorem OutOfReach.cons {links : Nat} {inside : List Location} {loc : Location} {piece : String}
    (h : OutOfReach fs links inside) (first : ∀ stop, ¬ Reaches fs links loc [piece] stop) :
    OutOfReach fs links ((loc ++ [piece]) :: inside) := by
  intro front name stop hmem
  rcases List.mem_cons.mp hmem with heq | hmem
  · obtain ⟨rfl, hname⟩ := List.append_inj' heq rfl
    obtain rfl : name = piece := List.singleton_inj.mp hname
    exact first stop
  · exact h front name stop hmem

/-- A link that can be followed leads where its target leads, with the fewest links that do for it:
with one less it is out of reach. -/
theorem Reaches.target {links : Nat} {loc stop : Location} {piece target : String}
    (h : Reaches fs links loc [piece] stop) (hturn : fs.turn loc piece = .link target) :
    ∃ fewer < links, Reaches fs fewer (startOf loc target) (allPieces target.toList) stop ∧
      ∀ stop', ¬ Reaches fs fewer loc [piece] stop' := by
  classical
  have hsome : ∃ least stop', Reaches fs least loc [piece] stop' := ⟨links, stop, h⟩
  obtain ⟨stop', hleast⟩ := Nat.find_spec hsome
  obtain rfl : stop = stop' := h.unique hleast
  have hle : Nat.find hsome ≤ links := Nat.find_min' hsome ⟨stop, h⟩
  have hmin : ∀ fewer < Nat.find hsome, ∀ stop', ¬ Reaches fs fewer loc [piece] stop' :=
    fun fewer hfewer stop' hreaches => Nat.find_min hsome hfewer ⟨stop', hreaches⟩
  generalize Nat.find hsome = least at hleast hle hmin
  cases hleast with
  | onward hother _ => simp [hturn] at hother
  | @link fewer _ _ _ target' _ hother htarget =>
      obtain rfl : target = target' := by simpa [hturn] using hother
      rw [List.append_nil] at htarget
      exact ⟨fewer, by omega, htarget, hmin fewer (Nat.lt_succ_self fewer)⟩

/-- Tracing looks at a name that is there, unless the path has become too long. -/
theorem comesTo_or_lookUp (hfs : fs.WellFormed)
    {into : List Location → Location → List String → Tracing} {inside : List Location}
    {loc stop : Location} {piece : String} {rest : List String} {n : Node} (hloc : Canonical fs loc)
    (hplain : isPlain piece = true)
    (hturn : fs.turn loc piece = .onward (loc ++ [piece]) ∨
      ∃ target, fs.turn loc piece = .link target)
    (hnode : fs.node? (loc ++ [piece]) = some n) :
    (fs.traceWith true into inside loc (piece :: rest)).ComesTo stop ∨
      fs.lookUp false (pathOf (loc ++ [piece])) = .ok n := by
  have hnul := nulFree_of_isEntryName (isEntryName_of_node? hfs hnode)
  have hlook := hloc.lookUp_eq (by simpa using hnul) hturn hnode
  by_cases hlong : pathLimit < byteLength (pathOf (loc ++ [piece])).text
  · refine .inl (.inr ⟨_, ?_, hlong⟩)
    rw [traceWith_plain hplain, hlook, if_pos hlong]
  · rw [if_neg hlong] at hlook
    exact .inr hlook

theorem traceWith_comesTo (hfs : fs.WellFormed)
    {into : List Location → Location → List String → Tracing} {links : Nat}
    (hinto : ∀ fewer < links, ∀ inside start pieces stop, Canonical fs start →
      OutOfReach fs fewer inside → Reaches fs fewer start pieces stop →
      (into inside start pieces).ComesTo stop)
    (hcanonical : ∀ inside start pieces stop, Canonical fs start →
      into inside start pieces = .done stop → Canonical fs stop)
    {inside : List Location} (hinside : OutOfReach fs links inside)
    {loc stop : Location} {pieces : List String} (hloc : Canonical fs loc)
    (h : Reaches fs links loc pieces stop) :
    (fs.traceWith true into inside loc pieces).ComesTo stop := by
  induction pieces generalizing loc with
  | nil =>
      cases h
      exact .inl traceWith_nil
  | cons piece rest ih =>
      cases h with
      | @onward _ _ next _ _ _ hturn hrest =>
          rcases piece_cases piece with hidle | rfl | hplain
          · obtain rfl := turn_idle hturn hidle
            rw [traceWith_idle hidle]
            exact ih hloc hrest
          · obtain rfl := turn_up hturn
            rw [traceWith_up]
            exact ih hloc.dropLast hrest
          obtain ⟨rfl, n, hnode, hlink⟩ := turn_onward hturn hplain
          rcases comesTo_or_lookUp hfs hloc hplain (.inl hturn) hnode with hdone | hlook
          · exact hdone
          have hnext := ih (hloc.snoc hplain hlook hlink) hrest
          rw [traceWith_plain hplain, hlook]
          cases n with
          | link target => exact absurd rfl (hlink target)
          | _ => exact hnext
      | @link fewer _ _ _ target _ hturn hrest =>
          have hplain := isPlain_of_turn_link hturn
          have hnode := turn_link hturn
          rcases comesTo_or_lookUp hfs hloc hplain (.inr ⟨target, hturn⟩) hnode with hdone | hlook
          · exact hdone
          rw [traceWith_plain hplain, hlook]
          have hall : Reaches fs (fewer + 1) loc ([piece] ++ rest) stop := .link hturn hrest
          obtain ⟨mid, hfront, hback⟩ := hall.split
          have hout : loc ++ [piece] ∉ inside := fun hin => hinside loc piece mid hin hfront
          obtain ⟨least, hless, htarget, hleast⟩ := hfront.target hturn
          have hinside' : OutOfReach fs least ((loc ++ [piece]) :: inside) :=
            (hinside.mono (Nat.le_of_lt hless)).cons hleast
          have hcomes := hinto least hless _ _ _ mid (hloc.startOf target) hinside' htarget
          simp only [traceLink]
          rw [if_neg (mt List.contains_iff_mem.mp hout)]
          rcases hcomes with hdone | ⟨far, hfar, hlong⟩
          · rw [hdone]
            exact ih (hcanonical _ _ _ _ (hloc.startOf target) hdone) hback
          · rw [hfar]
            exact .inr ⟨far, rfl, hlong⟩

/-- Tracing comes to where the operating system comes to, if it may go down as many levels. -/
theorem traceIn_comesTo (hfs : fs.WellFormed) {levels links : Nat} (hle : links ≤ levels)
    {inside : List Location} (hinside : OutOfReach fs links inside) {loc stop : Location}
    {pieces : List String} (hloc : Canonical fs loc) (h : Reaches fs links loc pieces stop) :
    (fs.traceIn true levels inside loc pieces).ComesTo stop := by
  induction levels generalizing links inside loc stop pieces with
  | zero =>
      rw [traceIn_eq_traceWith]
      refine traceWith_comesTo hfs (fun fewer hfewer => ?_) (by simp [inner]) hinside hloc h
      omega
  | succ levels ih =>
      rw [traceIn_eq_traceWith]
      refine traceWith_comesTo hfs (fun fewer hfewer inside' start pieces' stop' => ?_)
        (fun _ _ _ _ hstart => traceIn_canonical hstart) hinside hloc h
      intro hstart hout hreaches
      exact ih (by omega) hout hstart hreaches

end FileSystem

end YamlCheck
