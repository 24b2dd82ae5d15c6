import YamlCheck.Proofs.FileSystem.Refusals
import YamlCheck.Proofs.FileSystem.Written
import YamlCheck.Proofs.Run.Resolution

/-!
# Search paths that cannot be resolved

A tracing stops at the first piece that it cannot pass: a name that it cannot look at, a link that
leads back to itself, or a link whose target stops the tracing of it.  Where a search path stops its
tracing, resolving fails and the failure tells the search path.  The exception is a name with a NUL
character: no request can be made with it, and no failure is made of that.  It is met exactly if
everything in front of the name can be resolved.
-/

namespace YamlCheck.FileSystem

open YamlCheck.Path YamlCheck.Text

variable {fs : FileSystem}

/-! ## Names with a NUL character -/

theorem isPlain_of_nul {name : String} (h : '\x00' ∈ name.toList) : isPlain name = true := by
  rw [isPlain_iff]
  refine ⟨?_, ?_, ?_⟩ <;>
    rintro rfl <;>
    simp at h

/-- A path cannot be asked for exactly if it has a name with a NUL character. -/
theorem lookUp_nul_iff {followLast : Bool} {p : Path} :
    fs.lookUp followLast p = .error .nulInName ↔ ∃ name ∈ p.names, '\x00' ∈ name.toList := by
  constructor
  · intro h
    rcases lookUp_refusal h with ⟨-, hname⟩ | hway
    · exact hname
    · simp [OnTheWay] at hway
  · intro h
    have hany : (p.names.any fun name => name.toList.contains '\x00') = true := by
      simpa using h
    simp only [lookUp, locate, find, hany, ↓reduceIte, bind, Except.bind]

/-! ## Where a tracing stops -/

/-- What has stopped a tracing and where, if anything has: a refusal, or a link that leads back to
itself. -/
def Tracing.stop? : Tracing → Option (Option Refusal × Location)
  | .done _ => none
  | .looping link _ => some (none, link)
  | .refused r loc => some (some r, loc)

theorem Tracing.stop?_eq_refused_iff {t : Tracing} {r : Refusal} {far : Location} :
    t.stop? = some (some r, far) ↔ t = .refused r far := by
  cases t <;> simp [stop?]

section Stops

variable {into : List Location → Location → List String → Tracing} {inside : List Location}
  {loc : Location} {piece : String} {pieces : List String} {stop : Option Refusal × Location}

/-- What stops a tracing at a piece: a name that it cannot look at, a link whose target it is
tracing already, or a stop in the target of a link. -/
inductive StopsTracing (fs : FileSystem) (into : List Location → Location → List String → Tracing)
    (inside : List Location) (loc : Location) (piece : String) :
    Option Refusal × Location → Prop
  | refused {r : Refusal} : isPlain piece = true →
      fs.lookUp false (pathOf (loc ++ [piece])) = .error r →
      StopsTracing fs into inside loc piece (some r, loc ++ [piece])
  | loop {target : String} : isPlain piece = true →
      fs.lookUp false (pathOf (loc ++ [piece])) = .ok (.link target) → loc ++ [piece] ∈ inside →
      StopsTracing fs into inside loc piece (none, loc ++ [piece])
  | target {target : String} {stop : Option Refusal × Location} : isPlain piece = true →
      fs.lookUp false (pathOf (loc ++ [piece])) = .ok (.link target) → loc ++ [piece] ∉ inside →
      (into ((loc ++ [piece]) :: inside) (startOf loc target)
        (allPieces target.toList)).stop? = some stop →
      StopsTracing fs into inside loc piece stop

theorem StopsTracing.stop?_eq (h : StopsTracing fs into inside loc piece stop)
    (rest : List String) :
    (fs.traceWith true into inside loc (piece :: rest)).stop? = some stop := by
  cases h with
  | refused hplain hlook =>
      rw [traceWith_plain hplain, hlook]
      rfl
  | loop hplain hlook hin =>
      rw [traceWith_plain hplain, hlook]
      simp only [traceLink]
      rw [if_pos (List.contains_iff_mem.mpr hin)]
      rfl
  | @target target _ hplain hlook hout hstop =>
      rw [traceWith_plain hplain, hlook]
      simp only [traceLink]
      rw [if_neg (mt List.contains_iff_mem.mp hout)]
      cases htarget : into ((loc ++ [piece]) :: inside) (startOf loc target)
          (allPieces target.toList) with
      | done mid => simp [htarget, Tracing.stop?] at hstop
      | looping link pieces => simpa [htarget, Tracing.stop?] using hstop
      | refused r far => simpa [htarget, Tracing.stop?] using hstop

/-- A tracing passes a piece or stops at it, whatever comes behind. -/
theorem passes_or_stops (fs : FileSystem)
    (into : List Location → Location → List String → Tracing) (inside : List Location)
    (loc : Location) (piece : String) :
    (∃ next, ∀ rest, fs.traceWith true into inside loc (piece :: rest) =
        fs.traceWith true into inside next rest) ∨
      ∃ stop, StopsTracing fs into inside loc piece stop := by
  rcases piece_cases piece with hidle | rfl | hplain
  · exact .inl ⟨loc, fun rest => traceWith_idle hidle⟩
  · exact .inl ⟨loc.dropLast, fun rest => traceWith_up⟩
  cases hlook : fs.lookUp false (pathOf (loc ++ [piece])) with
  | error r => exact .inr ⟨_, .refused hplain hlook⟩
  | ok n =>
      cases n with
      | link target =>
          by_cases hin : loc ++ [piece] ∈ inside
          · exact .inr ⟨_, .loop hplain hlook hin⟩
          cases htarget : into ((loc ++ [piece]) :: inside) (startOf loc target)
              (allPieces target.toList) with
          | done mid =>
              refine .inl ⟨mid, fun rest => ?_⟩
              rw [traceWith_plain hplain, hlook]
              simp only [traceLink]
              rw [if_neg (mt List.contains_iff_mem.mp hin), htarget]
          | looping link pieces =>
              exact .inr ⟨(none, link), .target hplain hlook hin (by rw [htarget, Tracing.stop?])⟩
          | refused r far =>
              exact .inr ⟨(some r, far), .target hplain hlook hin (by rw [htarget, Tracing.stop?])⟩
      | _ =>
          refine .inl ⟨loc ++ [piece], fun rest => ?_⟩
          rw [traceWith_plain hplain, hlook]

/-- Behind pieces that have been traced, a tracing goes on from where they lead. -/
theorem traceWith_append {front : List String} {mid : Location}
    (h : fs.traceWith true into inside loc front = .done mid) (back : List String) :
    fs.traceWith true into inside loc (front ++ back) =
      fs.traceWith true into inside mid back := by
  induction front generalizing loc with
  | nil =>
      rw [traceWith_nil] at h
      cases h
      rfl
  | cons piece front ih =>
      rcases passes_or_stops fs into inside loc piece with ⟨next, hnext⟩ | ⟨stop, hstops⟩
      · rw [hnext] at h
        rw [List.cons_append, hnext]
        exact ih h
      · have hstop := hstops.stop?_eq front
        rw [h] at hstop
        cases hstop

/-- A tracing is stopped by the first piece that it cannot pass. -/
theorem traceWith_stop_iff :
    (fs.traceWith true into inside loc pieces).stop? = some stop ↔
      ∃ front piece back mid, pieces = front ++ piece :: back ∧
        fs.traceWith true into inside loc front = .done mid ∧
        StopsTracing fs into inside mid piece stop := by
  constructor
  · intro h
    induction pieces generalizing loc with
    | nil =>
        rw [traceWith_nil] at h
        cases h
    | cons piece rest ih =>
        rcases passes_or_stops fs into inside loc piece with ⟨next, hnext⟩ | ⟨stop', hstops⟩
        · rw [hnext] at h
          obtain ⟨front, last, back, mid, rfl, hfront, hstops⟩ := ih h
          exact ⟨piece :: front, last, back, mid, rfl, (hnext front).trans hfront, hstops⟩
        · obtain rfl : stop' = stop := Option.some.inj ((hstops.stop?_eq rest).symm.trans h)
          exact ⟨[], piece, rest, loc, rfl, traceWith_nil, hstops⟩
  · rintro ⟨front, piece, back, mid, rfl, hfront, hstops⟩
    rw [traceWith_append hfront]
    exact hstops.stop?_eq back

end Stops

/-! ## Tracings that meet a NUL character -/

section Nul

variable {levels : Nat} {inside : List Location} {loc far : Location} {pieces : List String}

/-- The step of `inner_stop_ne_nul` along a path, given that the target of a link never stops a
tracing by a NUL character. -/
theorem exists_nul_of_stop (hnul : fs.NulFree)
    (hinner : ∀ inside start pieces, Canonical fs start →
      (∀ piece ∈ pieces, '\x00' ∉ piece.toList) →
      (fs.inner true levels inside start pieces).stop? ≠ some (some .nulInName, far))
    (hloc : Canonical fs loc)
    (h : (fs.traceIn true levels inside loc pieces).stop? = some (some .nulInName, far)) :
    ∃ front name back mid, pieces = front ++ name :: back ∧ '\x00' ∈ name.toList ∧
      fs.traceIn true levels inside loc front = .done mid := by
  rw [traceIn_eq_traceWith, traceWith_stop_iff] at h
  obtain ⟨front, name, back, mid, rfl, hfront, hstops⟩ := h
  rw [← traceIn_eq_traceWith] at hfront
  have hmid : Canonical fs mid := traceIn_canonical hloc hfront
  refine ⟨front, name, back, mid, rfl, ?_, hfront⟩
  cases hstops with
  | refused _ hlook =>
      obtain ⟨other, hother, hmem⟩ := lookUp_nul_iff.mp hlook
      rcases List.mem_append.mp hother with hother | hother
      · exact absurd hmem (hmid.nulFree other hother)
      · rwa [List.mem_singleton.mp hother] at hmem
  | @target target _ hplain hlook _ hstop =>
      have hnode := hmid.node?_of_lookUp hplain hlook
      exact absurd hstop <| hinner _ _ _ (hmid.startOf target) fun piece hpiece =>
        (writable_of_link hnul hnode hpiece).2

/-- The target of a link never stops a tracing by a NUL character. -/
theorem inner_stop_ne_nul (hnul : fs.NulFree) (hloc : Canonical fs loc)
    (hpieces : ∀ piece ∈ pieces, '\x00' ∉ piece.toList) :
    (fs.inner true levels inside loc pieces).stop? ≠ some (some .nulInName, far) := by
  induction levels generalizing inside loc pieces with
  | zero => simp [inner, Tracing.stop?]
  | succ levels ih =>
      intro hstop
      obtain ⟨front, name, back, mid, rfl, hname, -⟩ :=
        exists_nul_of_stop hnul (fun _ _ _ hstart hfree => ih hstart hfree) hloc hstop
      exact hpieces name (by simp) hname

/-- A tracing is stopped by a NUL character exactly if all pieces in front of a name with one can be
traced. -/
theorem traceIn_nul_iff (hnul : fs.NulFree) (hloc : Canonical fs loc) :
    (∃ far, fs.traceIn true levels inside loc pieces = .refused .nulInName far) ↔
      ∃ front name back mid, pieces = front ++ name :: back ∧ '\x00' ∈ name.toList ∧
        fs.traceIn true levels inside loc front = .done mid := by
  constructor
  · rintro ⟨far, hrefused⟩
    exact exists_nul_of_stop hnul (fun _ _ _ hstart hfree => inner_stop_ne_nul hnul hstart hfree)
      hloc (Tracing.stop?_eq_refused_iff.mpr hrefused)
  · rintro ⟨front, name, back, mid, rfl, hname, hfront⟩
    have hlook : fs.lookUp false (pathOf (mid ++ [name])) = .error .nulInName :=
      lookUp_nul_iff.mpr ⟨name, by simp [pathOf], hname⟩
    rw [traceIn_eq_traceWith] at hfront ⊢
    exact ⟨mid ++ [name], Tracing.stop?_eq_refused_iff.mp <| traceWith_stop_iff.mpr
      ⟨front, name, back, mid, rfl, hfront, .refused (isPlain_of_nul hname) hlook⟩⟩

/-- A link that leads back to itself has been looked at. -/
theorem nulFree_of_looping {levels : Nat} {inside : List Location} {loc link : Location}
    {pieces : List String}
    (h : (fs.traceIn true levels inside loc pieces).stop? = some (none, link)) :
    ∀ name ∈ link, '\x00' ∉ name.toList := by
  rw [traceIn_eq_traceWith, traceWith_stop_iff] at h
  obtain ⟨front, piece, back, mid, rfl, -, hstops⟩ := h
  cases hstops with
  | loop _ hlook _ => exact (walk_of_lookUp hlook).1
  | target _ hlook _ hstop =>
      cases levels with
      | zero =>
          obtain rfl : mid ++ [piece] = link := by simpa [inner, Tracing.stop?] using hstop
          exact (walk_of_lookUp hlook).1
      | succ levels => exact nulFree_of_looping hstop

end Nul

/-! ## Resolving -/

theorem canonical_eq_ok_iff {p : Path} {loc : Location} :
    fs.canonical p = .ok loc ↔ fs.trace true [] p.names = .done loc := by
  unfold canonical
  cases fs.trace true [] p.names with
  | done stop => simp
  | refused r far => simp
  | looping link pieces =>
      simp only [reduceCtorEq, iff_false]
      cases fs.lookUp true (pathOf link) <;> simp

theorem canonical_eq_nul_iff {p : Path} {far : Location} :
    fs.canonical p = .error (.nulInName, far) ↔
      fs.trace true [] p.names = .refused .nulInName far := by
  unfold canonical
  cases htrace : fs.trace true [] p.names with
  | done stop => simp
  | refused r far => simp
  | looping link pieces =>
      have hstop : (fs.trace true [] p.names).stop? = some (none, link) := by
        rw [htrace, Tracing.stop?]
      simp only [reduceCtorEq, iff_false]
      cases hlook : fs.lookUp true (pathOf link) with
      | ok n => simp
      | error r =>
          simp only [Except.error.injEq, Prod.mk.injEq, not_and]
          rintro rfl
          obtain ⟨name, hname, hmem⟩ := lookUp_nul_iff.mp hlook
          exact absurd hmem (nulFree_of_looping hstop name hname)

/-- A path cannot be asked for exactly if all that is in front of a name with a NUL character has a
canonical location. -/
theorem canonical_nul_iff (hnul : fs.NulFree) {p : Path} :
    (∃ far, fs.canonical p = .error (.nulInName, far)) ↔
      ∃ front name back loc, p.names = front ++ name :: back ∧ '\x00' ∈ name.toList ∧
        fs.canonical { p with names := front } = .ok loc := by
  simp only [canonical_eq_nul_iff, canonical_eq_ok_iff]
  exact traceIn_nul_iff hnul Canonical.nil

/-- A failure that tells the search path, and why it has no canonical path: there is nothing at it,
or it is what the cause says. -/
def TellsPath (path candidate : Letters) (s : Stop) : Prop :=
  ∃ reason cause, s = .failure (.resolution path reason cause) ∧
    reason = (cause.map Incident.text).getD (candidate ++ " does not exist")

theorem resolutionStop_nul {path candidate place : Letters} :
    resolutionStop path candidate .nulInName place = .incident .nulInName := rfl

theorem resolutionStop_tells {r : Refusal} (path candidate place : Letters)
    (h : r ≠ .nulInName) : TellsPath path candidate (resolutionStop path candidate r place) := by
  cases r with
  | nulInName => exact (h rfl).elim
  | _ => exact ⟨_, _, rfl, rfl⟩

theorem TellsPath.ne_incident {path candidate : Letters} {s : Stop} {i : Incident}
    (h : TellsPath path candidate s) : s ≠ .incident i := by
  obtain ⟨reason, cause, rfl, -⟩ := h
  nofun

theorem nulFree_join {p directory : Path} (hp : ∀ name ∈ p.names, '\x00' ∉ name.toList)
    (hdirectory : ∀ name ∈ directory.names, '\x00' ∉ name.toList) :
    ∀ name ∈ (directory.join p).names, '\x00' ∉ name.toList := by
  intro name hname
  unfold join at hname
  split at hname
  · exact hp name hname
  · rcases List.mem_append.mp hname with hname | hname
    · exact hdirectory name hname
    · exact hp name hname

/-! ## Odd pieces -/

theorem nul_mem_standIn_iff {size : Nat} {piece : Letters} :
    '\x00' ∈ (standIn size piece).toList ↔ 0 < size ∧ .char '\x00' ∈ piece.list := by
  unfold standIn
  rw [String.toList_ofList, List.mem_replicate, Nat.pos_iff_ne_zero]
  by_cases h : .char '\x00' ∈ piece.list <;> simp [h]

/-- No request can be made with the name that stands for a piece with a NUL character. -/
theorem lookUp_standIn_nul_iff {loc : Location} {size : Nat} {piece : Letters}
    (hloc : Canonical fs loc) :
    fs.lookUp false ((pathOf loc).child (standIn size piece)) = .error .nulInName ↔
      0 < size ∧ .char '\x00' ∈ piece.list := by
  rw [lookUp_nul_iff, ← nul_mem_standIn_iff]
  constructor
  · rintro ⟨name, hname, hnul⟩
    rcases List.mem_append.mp hname with hname | hname
    · exact absurd hnul (hloc.nulFree name hname)
    · rwa [List.mem_singleton.mp hname] at hnul
  · exact fun hnul => ⟨_, List.mem_append_right _ (List.mem_singleton_self _), hnul⟩

/-- An odd piece has a NUL character, or letters without bytes, or it is told that there is nothing
at the search path. -/
theorem oddityStop_cases {path candidate : Letters} {loc : Location} (hloc : Canonical fs loc)
    (odd : Oddity) :
    (∃ size piece, odd = .foreign size piece ∧ 0 < size ∧ .char '\x00' ∈ piece.list ∧
        fs.oddityStop path candidate loc odd = .incident .nulInName) ∨
      (∃ a b l a' b', odd = .unencodable a b l ∧
        fs.oddityStop path candidate loc odd = .incident (.unencodable a' b' l)) ∨
      (∃ size piece, odd = .foreign size piece ∧ (0 < size → .char '\x00' ∉ piece.list) ∧
        TellsPath path candidate (fs.oddityStop path candidate loc odd)) := by
  cases odd with
  | unencodable a b l => exact .inr (.inl ⟨a, b, l, _, _, rfl, rfl⟩)
  | foreign size piece =>
    simp only [oddityStop]
    by_cases hnul : 0 < size ∧ .char '\x00' ∈ piece.list
    · rw [(lookUp_standIn_nul_iff hloc).mpr hnul]
      exact .inl ⟨size, piece, rfl, hnul.1, hnul.2, rfl⟩
    · refine .inr (.inr ⟨size, piece, rfl, fun hsize hmem => hnul ⟨hsize, hmem⟩, ?_⟩)
      cases hlook : fs.lookUp false ((pathOf loc).child (standIn size piece)) with
      | ok n => exact resolutionStop_tells _ _ _ (by simp)
      | error r =>
        refine resolutionStop_tells _ _ _ fun hr => hnul ?_
        rw [hr] at hlook
        exact (lookUp_standIn_nul_iff hloc).mp hlook

/-! ## What stops resolving -/

/-- Whether all that is in front of a name with a NUL character can be resolved. -/
def MeetsNul (fs : FileSystem) (path : Letters) (directory : Path) : Prop :=
  let sought := Sought.ofLetters path
  let candidate := directory.join sought.front
  (∃ front name back loc, candidate.names = front ++ name :: back ∧ '\x00' ∈ name.toList ∧
      fs.canonical { candidate with names := front } = .ok loc) ∨
    ∃ size piece loc, sought.odd = some (.foreign size piece) ∧ .char '\x00' ∈ piece.list ∧
      fs.canonical candidate = .ok loc

/-- Whether all that is in front of a piece with letters without bytes can be resolved. -/
def MeetsUnencodable (fs : FileSystem) (path : Letters) (directory : Path) (first : Letter) :
    Prop :=
  let sought := Sought.ofLetters path
  ∃ start stop loc, sought.odd = some (.unencodable start stop first) ∧
    fs.canonical (directory.join sought.front) = .ok loc

/-- The step of `resolve_escapes_iff` from a stop: it tells the search path, or there is a piece in
it that no request can be made with, and all in front of it can be resolved. -/
theorem resolve_eq_error {path : Letters} {directory : Path} {s : Stop} (hnul : fs.NulFree)
    (h : fs.resolve path directory = .error s) :
    TellsPath path (Sought.text directory path) s ∨
      (s = .incident .nulInName ∧ fs.MeetsNul path directory) ∨
        ∃ start stop first, s = .incident (.unencodable start stop first) ∧
          fs.MeetsUnencodable path directory first := by
  cases hcanonical : fs.canonical (directory.join (Sought.ofLetters path).front) with
  | error e =>
    obtain ⟨r, far⟩ := e
    rw [resolve_of_refusal hcanonical] at h
    cases h
    by_cases hr : r = .nulInName
    · subst hr
      exact .inr (.inl ⟨rfl, .inl ((canonical_nul_iff hnul).mp ⟨far, hcanonical⟩)⟩)
    · exact .inl (resolutionStop_tells _ _ _ hr)
  | ok loc =>
    cases hodd : (Sought.ofLetters path).odd with
    | none =>
      rw [resolve_of_canonical hodd hcanonical] at h
      cases h
    | some odd =>
      rw [resolve_of_odd hodd hcanonical] at h
      cases h
      rcases oddityStop_cases (canonical_isCanonical hcanonical) odd with
        ⟨size, piece, rfl, -, hmem, hstop⟩ | ⟨a, b, l, a', b', rfl, hstop⟩ | ⟨-, -, -, -, htells⟩
      · exact .inr (.inl ⟨hstop, .inr ⟨size, piece, loc, hodd, hmem, hcanonical⟩⟩)
      · exact .inr (.inr ⟨a', b', l, hstop, a, b, loc, hodd, hcanonical⟩)
      · exact .inl htells

theorem MeetsNul.resolve {path : Letters} {directory : Path} (hnul : fs.NulFree)
    (h : fs.MeetsNul path directory) :
    fs.resolve path directory = .error (.incident .nulInName) := by
  rcases h with hfront | ⟨size, piece, loc, hodd, hmem, hcanonical⟩
  · obtain ⟨far, hfar⟩ := (canonical_nul_iff hnul).mpr hfront
    exact resolve_of_refusal hfar
  · have hlook := (lookUp_standIn_nul_iff (canonical_isCanonical hcanonical)).mpr
      ⟨(Sought.foreign_of_odd hodd hmem).2, hmem⟩
    rw [resolve_of_odd hodd hcanonical]
    simp only [oddityStop, hlook, resolutionStop_nul]

theorem MeetsUnencodable.resolve {path : Letters} {directory : Path} {first : Letter}
    (h : fs.MeetsUnencodable path directory first) :
    ∃ start stop, fs.resolve path directory =
      .error (.incident (.unencodable start stop first)) := by
  obtain ⟨start, stop, loc, hodd, hcanonical⟩ := h
  exact ⟨_, _, resolve_of_odd hodd hcanonical⟩

/-- What stops resolving is a failure that tells the search path, or a piece that no failure is made
of: one with a NUL character, or one with letters that have no bytes.  Such a piece is met exactly
if all that is in front of it can be resolved.  So a search path whose letters all have bytes and
are no NUL characters, in a directory whose path has none, is resolved or fails as it should. -/
theorem resolve_escapes_iff (hnul : fs.NulFree) (path : Letters) (directory : Path) :
    (∀ s, fs.resolve path directory = .error s →
        TellsPath path (Sought.text directory path) s ∨ s = .incident .nulInName ∨
          ∃ start stop first, s = .incident (.unencodable start stop first)) ∧
      (fs.resolve path directory = .error (.incident .nulInName) ↔ fs.MeetsNul path directory) ∧
      (∀ first, (∃ start stop, fs.resolve path directory =
          .error (.incident (.unencodable start stop first))) ↔
        fs.MeetsUnencodable path directory first) ∧
      ((∀ l ∈ path.list, l ≠ .char '\x00' ∧ (Oddity.bytes? l).isSome) →
        (∀ name ∈ directory.names, '\x00' ∉ name.toList) →
          (∃ p, fs.resolve path directory = .ok p) ∨
            ∃ s, fs.resolve path directory = .error s ∧
              TellsPath path (Sought.text directory path) s) := by
  refine ⟨?_, ⟨fun h => ?_, fun h => h.resolve hnul⟩,
    fun first => ⟨fun h => ?_, fun h => h.resolve⟩,
    fun hletters hdirectory => ?_⟩
  · intro s hs
    rcases resolve_eq_error hnul hs with htells | ⟨rfl, -⟩ | ⟨start, stop, first, rfl, -⟩
    · exact .inl htells
    · exact .inr (.inl rfl)
    · exact .inr (.inr ⟨start, stop, first, rfl⟩)
  · rcases resolve_eq_error hnul h with htells | ⟨-, hmeets⟩ | ⟨start, stop, first, hother, -⟩
    · exact (htells.ne_incident rfl).elim
    · exact hmeets
    · cases hother
  · obtain ⟨start, stop, h⟩ := h
    rcases resolve_eq_error hnul h with htells | ⟨hother, -⟩ | ⟨start, stop, first, heq, hmeets⟩
    · exact (htells.ne_incident rfl).elim
    · cases hother
    · cases heq
      exact hmeets
  · have hfree : .char '\x00' ∉ path.list := fun hmem => (hletters _ hmem).1 rfl
    cases hresolve : fs.resolve path directory with
    | ok p => exact .inl ⟨p, rfl⟩
    | error s =>
      refine .inr ⟨s, rfl, ?_⟩
      rcases resolve_eq_error hnul hresolve with htells | ⟨-, hmeets⟩ | ⟨_, _, first, -, hmeets⟩
      · exact htells
      · rcases hmeets with ⟨front, name, back, _, hnames, hname, -⟩ | ⟨_, _, _, hodd, hmem, -⟩
        · have hname' := nulFree_join (Sought.nulFree_front hfree) hdirectory name
            (by simp [hnames])
          exact (hname' hname).elim
        · exact (hfree (Sought.foreign_of_odd hodd hmem).1).elim
      · obtain ⟨_, _, _, hodd, -⟩ := hmeets
        obtain ⟨l, hl, hnone⟩ := Sought.unencodable_of_odd hodd
        have hbytes := (hletters l hl).2
        rw [hnone] at hbytes
        cases hbytes

theorem linkedTree_nulFree : linkedTree.NulFree := by
  intro loc target hlink
  have hplaces : linkedTree.root.linkPlaces = [["project", "here"]] := by decide +kernel
  have hloc := Node.mem_linkPlaces hlink
  rw [hplaces, List.mem_singleton] at hloc
  subst hloc
  have hnode : linkedTree.node? ["project", "here"] = some (.link "../shared/conf") := rfl
  obtain rfl := Node.link.inj (Option.some.inj (hnode.symm.trans hlink))
  decide

/-- A name with a letter without bytes, behind a link that leads to a directory. -/
def halfName : Letters := ⟨(Letters.ofText "here/").list ++ [.half 0]⟩

/-- A NUL character is met behind a link that leads somewhere, and so is a letter without bytes, but
neither is behind a name that is not there. -/
theorem linkedTree_escapes :
    linkedTree.NulFree ∧
      linkedTree.resolve "here/a\x00" ⟨.slash, ["project"]⟩ = .error (.incident .nulInName) ∧
      (∃ start stop, linkedTree.resolve halfName ⟨.slash, ["project"]⟩ =
        .error (.incident (.unencodable start stop (.half 0)))) ∧
      ∃ s, linkedTree.resolve "gone/a\x00" ⟨.slash, ["project"]⟩ = .error s ∧
        TellsPath "gone/a\x00" "/project/gone/a\x00" s := by
  have hhere : linkedTree.canonical ⟨.slash, ["project", "here"]⟩ = .ok ["shared", "conf"] := by
    decide +kernel
  have hgone : linkedTree.canonical
      ((Path.mk .slash ["project"]).join (Sought.ofLetters "gone/a\x00").front) =
        .error (.missing, ["project", "gone"]) := by
    rw [Sought.front_ofText]
    decide +kernel
  have hnames : ((Path.mk .slash ["project"]).join (Sought.ofLetters "here/a\x00").front).names =
      ["project", "here"] ++ "a\x00" :: [] := by
    rw [Sought.front_ofText]
    decide +kernel
  have hhalf : (Sought.ofLetters halfName).front = ⟨.here, ["here"]⟩ ∧
      (Sought.ofLetters halfName).odd = some (.unencodable 0 0 (.half 0)) := by decide +kernel
  have htext : Sought.text ⟨.slash, ["project"]⟩ "gone/a\x00" = "/project/gone/a\x00" := by
    decide +kernel
  obtain ⟨-, hescapes, -⟩ :=
    resolve_escapes_iff linkedTree_nulFree "here/a\x00" ⟨.slash, ["project"]⟩
  obtain ⟨-, -, hunencodable, -⟩ :=
    resolve_escapes_iff linkedTree_nulFree halfName ⟨.slash, ["project"]⟩
  obtain ⟨hstops, -⟩ :=
    resolve_escapes_iff linkedTree_nulFree "gone/a\x00" ⟨.slash, ["project"]⟩
  refine ⟨linkedTree_nulFree, hescapes.mpr (.inl ⟨_, _, _, _, hnames, by decide, hhere⟩),
    (hunencodable _).mpr ⟨0, 0, ["shared", "conf"], hhalf.2, ?_⟩, _, resolve_of_refusal hgone, ?_⟩
  · rw [hhalf.1]
    exact hhere
  · rcases hstops _ (resolve_of_refusal hgone) with htells | hother | ⟨_, _, _, hother⟩
    · rwa [htext] at htells
    · cases hother
    · cases hother

/-- Not all that stops the resolving of a search path is a failure that tells it. -/
theorem resolve_not_told :
    ¬ ∀ (fs : FileSystem) (path : Letters) (directory : Path), fs.WellFormed → fs.NulFree →
      directory.isAbsolute = true → (∃ p, fs.resolve path directory = .ok p) ∨
        ∃ reason cause,
          fs.resolve path directory = .error (.failure (.resolution path reason cause)) := by
  intro h
  have hcanonical : linkedTree.canonical
      ((Path.mk .slash ["project"]).join (Sought.ofLetters "a\x00").front) =
        .error (.nulInName, ["project", "a\x00"]) := by
    rw [Sought.front_ofText]
    decide +kernel
  have hresolve := resolve_of_refusal hcanonical
  rcases h linkedTree "a\x00" ⟨.slash, ["project"]⟩ (by decide +kernel) linkedTree_nulFree rfl with
    ⟨p, hp⟩ | ⟨reason, cause, hfailure⟩
  · cases hp.symm.trans hresolve
  · cases hfailure.symm.trans hresolve

end YamlCheck.FileSystem
