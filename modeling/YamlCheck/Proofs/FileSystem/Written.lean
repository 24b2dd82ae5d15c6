import YamlCheck.Proofs.FileSystem.Gained

/-!
# Writing a file that is not there

Where a path leads to nothing, writing makes a file at the vacant entry that it leads to, which may
be elsewhere if the last name of the path is a link to nowhere.  From then on the path leads to this
file.
-/

namespace YamlCheck

namespace FileSystem

open Node YamlCheck.Path

variable {fs fs' : FileSystem} {place : Location} {name : String} {bytes : List UInt8}

/-- No link has a target that no request can be made with. -/
def NulFree (fs : FileSystem) : Prop :=
  ∀ loc target, fs.node? loc = some (.link target) → '\x00' ∉ target.toList

/-- A name that an entry can have, if it is not too long and stands for no other directory. -/
def Writable (name : String) : Prop := '/' ∉ name.toList ∧ '\x00' ∉ name.toList

theorem writable_of_link (h : fs.NulFree) {loc : Location} {target : String}
    (hnode : fs.node? loc = some (.link target)) {piece : String}
    (hpiece : piece ∈ allPieces target.toList) : Writable piece := by
  obtain ⟨hslash, hmem⟩ := mem_allPieces hpiece
  exact ⟨hslash, fun hnul => h loc target hnode (hmem _ hnul)⟩

theorem nulFree_intercalate {words : List (List Char)} (h : ∀ w ∈ words, '\x00' ∉ w) :
    '\x00' ∉ ['/'].intercalate words := by
  induction words with
  | nil => simp
  | cons w rest ih =>
      obtain ⟨hw, hrest⟩ := List.forall_mem_cons.mp h
      cases rest with
      | nil => simpa using hw
      | cons v rest => simpa [List.intercalate_cons_cons, hw] using ih hrest

/-! ## Walks to vacant entries -/

/-- Where an entry is vacant, there is a directory that can be searched and has none of its name. -/
theorem directory_of_vacant (h : fs.turn place name = .vacant) :
    isPlain name = true ∧ byteLength name ≤ nameLimit ∧ ∃ mode entries,
      fs.node? place = some (.directory mode entries) ∧ mode.search = true ∧
        entryNamed? entries name = none := by
  obtain ⟨mode, entries, hnode⟩ := directory_of_turn h (by simp)
  have hplain : isPlain name = true := by
    rcases piece_cases name with hidle | rfl | hplain
    · rw [isName, Bool.and_eq_false_iff, bne_eq_false_iff_eq, bne_eq_false_iff_eq] at hidle
      rcases hidle with rfl | rfl
      · simp [turn, hnode] at h
      · cases hsearch : mode.search <;> simp [turn, hnode, hsearch] at h
    · cases hsearch : mode.search <;> simp [turn, hnode, hsearch] at h
    · exact hplain
  rw [turn_plain hnode hplain] at h
  split at h
  · cases h
  rename_i hsearch
  split at h
  · cases h
  rename_i hshort
  split at h
  · rename_i hnone
    rw [node?_snoc hnode] at hnone
    exact ⟨hplain, Nat.le_of_not_lt hshort, mode, entries, hnode, by simpa using hsearch, hnone⟩
  · cases h
  · cases h

/-- The step of `walk_vacant` along a path, given what is known behind links. -/
theorem walk_vacant_along {P : String → Prop} {followLast : Bool} {links : Nat}
    (hlinks : ∀ loc target, fs.node? loc = some (.link target) →
      ∀ piece ∈ allPieces target.toList, P piece)
    (henter : ∀ start pieces, (∀ last, pieces.getLast? = some last → P last) →
      fs.enter followLast links start pieces = .ok (.vacant place name) →
        P name ∧ fs.turn place name = .vacant)
    {loc : Location} {pieces : List String}
    (hlast : ∀ last, pieces.getLast? = some last → P last)
    (h : fs.walk followLast links loc pieces = .ok (.vacant place name)) :
    P name ∧ fs.turn place name = .vacant := by
  induction pieces generalizing loc with
  | nil => simp [walk_nil] at h
  | cons piece rest ih =>
      have hrest : ∀ last, rest.getLast? = some last → P last := by
        intro last hmem
        apply hlast
        rw [List.getLast?_cons, hmem, Option.getD_some]
      rw [walk_cons] at h
      cases hturn : fs.turn loc piece with
      | onward next =>
          rw [hturn] at h
          exact ih hrest h
      | link target =>
          simp only [hturn] at h
          split at h
          · cases h
          refine henter _ _ (fun last hmem => ?_) h
          rw [List.getLast?_append] at hmem
          cases hend : rest.getLast? with
          | some other =>
              rw [hend, Option.some_or, Option.some.injEq] at hmem
              exact hmem ▸ hrest other hend
          | none =>
              rw [hend, Option.none_or] at hmem
              exact hlinks _ _ (turn_link hturn) last (List.mem_of_getLast? hmem)
      | vacant =>
          simp only [hturn] at h
          split at h
          · rename_i hnil
            cases h
            rw [List.isEmpty_iff] at hnil
            subst hnil
            exact ⟨hlast _ rfl, hturn⟩
          · cases h
      | refused r => simp [hturn] at h

/-- The name of a vacant entry that a walk ends at is the last piece of its path or of a link's
target. -/
theorem walk_vacant {P : String → Prop} {followLast : Bool} {links : Nat}
    (hlinks : ∀ loc target, fs.node? loc = some (.link target) →
      ∀ piece ∈ allPieces target.toList, P piece)
    {loc : Location} {pieces : List String}
    (hlast : ∀ last, pieces.getLast? = some last → P last)
    (h : fs.walk followLast links loc pieces = .ok (.vacant place name)) :
    P name ∧ fs.turn place name = .vacant := by
  induction links generalizing loc pieces with
  | zero => exact walk_vacant_along hlinks (by simp [enter]) hlast h
  | succ links ih =>
      have henter : ∀ start pieces, (∀ last, pieces.getLast? = some last → P last) →
          fs.enter followLast (links + 1) start pieces = .ok (.vacant place name) →
            P name ∧ fs.turn place name = .vacant := fun _ _ hlast hwalk => ih hlast hwalk
      exact walk_vacant_along hlinks henter hlast h

theorem find_vacant {P : String → Prop} {followLast : Bool} {p : Path}
    (hlinks : ∀ loc target, fs.node? loc = some (.link target) →
      ∀ piece ∈ allPieces target.toList, P piece)
    (hlast : ∀ last, p.names.getLast? = some last → P last)
    (h : fs.find followLast p = .ok (.vacant place name)) :
    P name ∧ fs.turn place name = .vacant := by
  unfold find at h
  split at h
  · cases h
  split at h
  · cases h
  · exact walk_vacant hlinks hlast h

/-! ## Writing -/

theorem isKind_of_vacant (kind : Node → Bool) {p : Path}
    (h : fs.find true p = .ok (.vacant place name)) : fs.isKind kind p = .ok false := by
  simp only [isKind, lookUp, locate, h, bind, Except.bind]
  rfl

theorem write_of_vacant (bytes : List UInt8) {p : Path} {mode : Mode}
    {entries : List (String × Node)} (h : fs.find true p = .ok (.vacant place name))
    (hnode : fs.node? place = some (.directory mode entries)) (hwritable : mode.write = true) :
    fs.write p bytes = .ok (fs.put place name (.file .ofFile bytes)) := by
  have hmode : (Node.directory mode entries).mode = mode := rfl
  simp only [write, h, bind, Except.bind, add, hnode, hmode, hwritable, ↓reduceIte]

/-- Writing where nothing is adds one file and makes no other difference. -/
theorem gains_of_write (hfs : fs.WellFormed) (hnul : fs.NulFree) {p : Path}
    (hlast : ∀ last, p.names.getLast? = some last → Writable last)
    (habsent : fs.isThere p = .ok false) (hwrite : fs.write p bytes = .ok fs') :
    ∃ place name, fs.find true p = .ok (.vacant place name) ∧
      fs' = fs.put place name (.file .ofFile bytes) ∧ Gains fs fs' place name bytes := by
  simp only [write, bind, Except.bind] at hwrite
  cases hfind : fs.find true p with
  | error r => simp [hfind] at hwrite
  | ok found =>
      cases found with
      | there loc =>
          -- A node there would have been seen, and without a node nothing is written.
          simp only [hfind] at hwrite
          cases hnode : fs.node? loc with
          | none => simp [hnode] at hwrite
          | some n =>
              have hlook : fs.lookUp true p = .ok n := by
                simp only [lookUp, locate, hfind, hnode, bind, Except.bind]
              simp [isThere, isKind, hlook] at habsent
      | vacant place name =>
          obtain ⟨⟨hslash, hname⟩, hturn⟩ :=
            find_vacant (fun _ _ hlink _ hpiece => writable_of_link hnul hlink hpiece) hlast hfind
          obtain ⟨hplain, hshort, mode, entries, hnode, hsearch, hvacant⟩ :=
            directory_of_vacant hturn
          have hentry : isEntryName name = true := by
            rw [isPlain, Bool.and_eq_true] at hplain
            simp [isEntryName, hplain, hslash, hname, hshort]
          simp only [hfind, add, hnode] at hwrite
          split at hwrite
          · cases hwrite
            exact ⟨place, name, rfl, rfl, gains_put hfs hnode hsearch hvacant hentry bytes⟩
          · cases hwrite

namespace Gains

/-- From then on there is a file at the path that has been written to. -/
theorem lookUp_of_vacant (h : Gains fs fs' place name bytes) {p : Path}
    (hfind : fs.find true p = .ok (.vacant place name)) :
    fs'.lookUp true p = .ok (.file .ofFile bytes) := by
  have hleads := h.find_leads true p
  rw [hfind] at hleads
  cases hfind' : fs'.find true p with
  | error r =>
      rw [hfind'] at hleads
      cases hleads
  | ok found =>
      rw [hfind'] at hleads
      cases hleads with
      | found => simp only [lookUp, locate, hfind', h.there, bind, Except.bind]
      | same =>
          -- The entry is vacant no more.
          obtain ⟨-, hturn⟩ := find_vacant (P := fun _ => True) (by simp) (by simp) hfind'
          obtain ⟨-, -, mode, entries, hnode, -, hvacant⟩ := directory_of_vacant hturn
          have hthere := h.there
          rw [node?_snoc hnode, hvacant] at hthere
          cases hthere

end Gains

end FileSystem

end YamlCheck
