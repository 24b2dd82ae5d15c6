import YamlCheck.Proofs.FileSystem.Lookup

/-!
# Successful walks

A walk that comes to a location is a run of steps onward and of links that are entered.  More links
than needed do no harm, and a walk along a path is a walk along its first part, followed by one
along the rest.
-/

namespace YamlCheck.FileSystem

/-! ## What walks depend on -/

section Congruence

variable {fs fs' : FileSystem}

/-- Walks depend on nothing but the turns on the way. -/
theorem walkWith_congr (h : ∀ loc piece, fs'.turn loc piece = fs.turn loc piece)
    (followLast : Bool) (enter : Location → List String → Except Refusal Found) (loc : Location)
    (pieces : List String) :
    fs'.walkWith followLast enter loc pieces = fs.walkWith followLast enter loc pieces := by
  induction pieces generalizing loc with
  | nil => rfl
  | cons piece rest ih =>
      unfold walkWith
      rw [h]
      cases fs.turn loc piece with
      | onward next => exact ih next
      | _ => rfl

theorem walk_congr (h : ∀ loc piece, fs'.turn loc piece = fs.turn loc piece) (followLast : Bool)
    (links : Nat) : fs'.walk followLast links = fs.walk followLast links := by
  induction links with
  | zero => exact funext fun loc => funext fun pieces => walkWith_congr h ..
  | succ links ih =>
      unfold walk
      rw [ih]
      exact funext fun loc => funext fun pieces => walkWith_congr h ..

theorem locate_congr (h : ∀ loc piece, fs'.turn loc piece = fs.turn loc piece) (followLast : Bool)
    (p : Path) : fs'.locate followLast p = fs.locate followLast p := by
  simp only [locate, find, walk_congr h]

end Congruence

variable {fs : FileSystem}

/-- With so many links at most, and the last one followed too, the pieces of a path lead from a
location to another one. -/
inductive Reaches (fs : FileSystem) : Nat → Location → List String → Location → Prop
  | here (links : Nat) (loc : Location) : Reaches fs links loc [] loc
  | onward {links : Nat} {loc next stop : Location} {piece : String} {rest : List String} :
      fs.turn loc piece = .onward next → Reaches fs links next rest stop →
      Reaches fs links loc (piece :: rest) stop
  | link {links : Nat} {loc stop : Location} {piece target : String} {rest : List String} :
      fs.turn loc piece = .link target →
      Reaches fs links (startOf loc target) (Path.allPieces target.toList ++ rest) stop →
      Reaches fs (links + 1) loc (piece :: rest) stop

/-! ## Walks and what they reach -/

/-- What a walk does behind a link, given how many links it may still follow. -/
def enter (fs : FileSystem) (followLast : Bool) :
    Nat → Location → List String → Except Refusal Found
  | 0 => fun _ _ => .error .tooManyLinks
  | links + 1 => fs.walk followLast links

theorem walk_eq_walkWith (followLast : Bool) (links : Nat) :
    fs.walk followLast links = fs.walkWith followLast (fs.enter followLast links) := by
  cases links <;> rfl

theorem walk_nil (followLast : Bool) (links : Nat) (loc : Location) :
    fs.walk followLast links loc [] = .ok (.there loc) := by
  rw [walk_eq_walkWith, walkWith]

theorem walk_cons (followLast : Bool) (links : Nat) (loc : Location) (piece : String)
    (rest : List String) :
    fs.walk followLast links loc (piece :: rest) =
      match fs.turn loc piece with
      | .onward next => fs.walk followLast links next rest
      | .link target =>
        if rest.isEmpty && !followLast then .ok (.there (loc ++ [piece]))
        else fs.enter followLast links (startOf loc target) (Path.allPieces target.toList ++ rest)
      | .vacant => if rest.isEmpty then .ok (.vacant loc piece) else .error .missing
      | .refused r => .error r := by
  rw [walk_eq_walkWith]
  cases hturn : fs.turn loc piece <;> simp only [walkWith, hturn]

theorem Reaches.walk_eq {links : Nat} {loc stop : Location} {pieces : List String}
    (h : Reaches fs links loc pieces stop) : fs.walk true links loc pieces = .ok (.there stop) := by
  induction h with
  | here links loc => exact walk_nil true links loc
  | onward hturn _ ih => simp only [walk_cons, hturn, ih]
  | link hturn _ ih =>
      simp only [walk_cons, hturn, Bool.not_true, Bool.and_false, Bool.false_eq_true, ↓reduceIte,
        enter, ih]

/-- The step of `reaches_of_walk` along a path, given what the walk behind a link reaches. -/
theorem reaches_of_walk_along {links : Nat}
    (henter : ∀ start pieces stop, fs.enter true links start pieces = .ok (.there stop) →
      ∃ fewer, links = fewer + 1 ∧ Reaches fs fewer start pieces stop)
    {loc stop : Location} {pieces : List String}
    (h : fs.walk true links loc pieces = .ok (.there stop)) :
    Reaches fs links loc pieces stop := by
  induction pieces generalizing loc with
  | nil =>
      rw [walk_nil] at h
      cases h
      exact .here links stop
  | cons piece rest ih =>
      rw [walk_cons] at h
      cases hturn : fs.turn loc piece with
      | onward next =>
          simp only [hturn] at h
          exact .onward hturn (ih h)
      | link target =>
          simp only [hturn, Bool.not_true, Bool.and_false, Bool.false_eq_true, ↓reduceIte] at h
          obtain ⟨fewer, rfl, hreaches⟩ := henter _ _ _ h
          exact .link hturn hreaches
      | vacant =>
          simp only [hturn] at h
          split at h <;> simp at h
      | refused r => simp [hturn] at h

theorem reaches_of_walk {links : Nat} {loc stop : Location} {pieces : List String}
    (h : fs.walk true links loc pieces = .ok (.there stop)) :
    Reaches fs links loc pieces stop := by
  induction links generalizing loc stop pieces with
  | zero =>
      refine reaches_of_walk_along (fun loc pieces stop hnone => ?_) h
      simp [enter] at hnone
  | succ links ih =>
      refine reaches_of_walk_along (fun loc pieces stop hwalk => ?_) h
      exact ⟨links, rfl, ih hwalk⟩

/-! ## Links and parts of walks -/

namespace Reaches

variable {links more : Nat} {loc stop stop' : Location} {pieces : List String}

theorem mono (h : Reaches fs links loc pieces stop) (hle : links ≤ more) :
    Reaches fs more loc pieces stop := by
  induction h generalizing more with
  | here links loc => exact .here more loc
  | onward hturn _ ih => exact .onward hturn (ih hle)
  | link hturn _ ih =>
      obtain ⟨fewer, rfl⟩ : ∃ fewer, more = fewer + 1 := ⟨more - 1, by omega⟩
      exact .link hturn (ih (by omega))

theorem unique (h : Reaches fs links loc pieces stop) (h' : Reaches fs more loc pieces stop') :
    stop = stop' := by
  have hwalk := (h.mono (Nat.le_max_left links more)).walk_eq
  have hwalk' := (h'.mono (Nat.le_max_right links more)).walk_eq
  rw [hwalk] at hwalk'
  cases hwalk'
  rfl

/-- Whatever leads to the end of a path leads to the end of its first part, and from there on. -/
theorem split {front back : List String} (h : Reaches fs links loc (front ++ back) stop) :
    ∃ mid, Reaches fs links loc front mid ∧ Reaches fs links mid back stop := by
  generalize hpieces : front ++ back = pieces at h
  induction h generalizing front with
  | here links loc =>
      obtain ⟨rfl, rfl⟩ := List.append_eq_nil_iff.mp hpieces
      exact ⟨loc, .here links loc, .here links loc⟩
  | @onward links loc next stop piece rest hturn hrest ih =>
      cases front with
      | nil =>
          obtain rfl : back = piece :: rest := hpieces
          exact ⟨loc, .here links loc, .onward hturn hrest⟩
      | cons first front =>
          obtain ⟨rfl, hrest⟩ := List.cons.inj hpieces
          obtain ⟨mid, hfront, hback⟩ := ih hrest
          exact ⟨mid, .onward hturn hfront, hback⟩
  | @link links loc stop piece target rest hturn hrest ih =>
      cases front with
      | nil =>
          obtain rfl : back = piece :: rest := hpieces
          exact ⟨loc, .here (links + 1) loc, .link hturn hrest⟩
      | cons first front =>
          obtain ⟨rfl, rfl⟩ := List.cons.inj hpieces
          obtain ⟨mid, hfront, hback⟩ := ih (List.append_assoc _ front back)
          exact ⟨mid, .link hturn hfront, hback.mono (Nat.le_succ links)⟩

end Reaches

end YamlCheck.FileSystem
