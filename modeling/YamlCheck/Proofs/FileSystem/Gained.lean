import YamlCheck.FileSystem.Change
import YamlCheck.Proofs.FileSystem.Outline

/-!
# One more file

A file system gains a file if one is written where a directory has no entry of its name.  Whatever a
path led to before, it leads to still; and what has led nowhere leads nowhere still, or to the new
file.
-/

namespace YamlCheck

namespace Node

/-- Two nodes that are one, or two directories with the same rights. -/
inductive Kin : Node → Node → Prop
  | same (n : Node) : Kin n n
  | directory {mode : Mode} {entries entries' : List (String × Node)} :
      Kin (.directory mode entries) (.directory mode entries')

theorem Kin.rel_refl (n? : Option Node) : Option.Rel Kin n? n? := by
  cases n? with
  | none => exact .none
  | some n => exact .some (.same n)

theorem Kin.isDirectory_eq {n n' : Node} (h : n.Kin n') : n'.isDirectory = n.isDirectory := by
  cases h <;> rfl

theorem Kin.isFile_eq {n n' : Node} (h : n.Kin n') : n'.isFile = n.isFile := by
  cases h <;> rfl

theorem Kin.mode_eq {n n' : Node} (h : n.Kin n') : n'.mode = n.mode := by
  cases h <;> rfl

/-! ## Putting a new entry into a tree -/

theorem putEntry_of_vacant {entries : List (String × Node)} {name : String} (n : Node)
    (h : entryNamed? entries name = none) : putEntry entries name n = entries ++ [(name, n)] := by
  induction entries with
  | nil => rfl
  | cons e rest ih =>
      rw [entryNamed?_cons] at h
      by_cases hname : e.1 = name
      · simp [hname] at h
      · rw [if_neg hname] at h
        simp [putEntry, hname, ih h]

theorem entryNamed?_eq_none_iff {entries : List (String × Node)} {name : String} :
    entryNamed? entries name = none ↔ name ∉ entries.map (·.1) := by
  induction entries with
  | nil => simp [entryNamed?]
  | cons e rest ih =>
      rw [entryNamed?_cons]
      by_cases hname : e.1 = name
      · simp [hname]
      · simp [hname, ih, Ne.symm hname]

theorem wellFormedIn_append {entries : List (String × Node)} {name : String} {n : Node}
    (h : wellFormedIn entries = true) (hname : FileSystem.isEntryName name = true)
    (hfresh : name ∉ entries.map (·.1)) (hn : n.wellFormed = true) :
    wellFormedIn (entries ++ [(name, n)]) = true := by
  induction entries with
  | nil => exact wellFormedIn_cons.mpr ⟨hname, by simp, hn, rfl⟩
  | cons e rest ih =>
      obtain ⟨hfirst, hother, hnode, hrest⟩ := wellFormedIn_cons.mp h
      obtain ⟨hne, hfresh⟩ := not_or.mp (mt List.mem_cons.mpr hfresh)
      rw [List.cons_append]
      refine wellFormedIn_cons.mpr ⟨hfirst, ?_, hnode, ih hrest hfresh⟩
      rw [List.map_append, List.mem_append]
      rintro (hmem | hmem)
      · exact hother hmem
      · exact hne (List.mem_singleton.mp hmem).symm

theorem wellFormedIn_map {entries : List (String × Node)} {f : String × Node → String × Node}
    (hnames : ∀ e ∈ entries, (f e).1 = e.1) (hnodes : ∀ e ∈ entries, (f e).2.wellFormed = true)
    (h : wellFormedIn entries = true) : wellFormedIn (entries.map f) = true := by
  induction entries with
  | nil => rfl
  | cons e rest ih =>
      obtain ⟨hfirst, hother, -, hrest⟩ := wellFormedIn_cons.mp h
      have hsame : (rest.map f).map (·.1) = rest.map (·.1) := by
        rw [List.map_map]
        exact List.map_congr_left fun e he => hnames e (List.mem_cons_of_mem _ he)
      refine wellFormedIn_cons.mpr ⟨?_, ?_, hnodes e (List.mem_cons_self ..), ?_⟩
      · rw [hnames e (List.mem_cons_self ..)]
        exact hfirst
      · rw [hsame, hnames e (List.mem_cons_self ..)]
        exact hother
      · exact ih (fun e he => hnames e (List.mem_cons_of_mem _ he))
          (fun e he => hnodes e (List.mem_cons_of_mem _ he)) hrest

theorem countLinksIn_append (entries others : List (String × Node)) :
    countLinksIn (entries ++ others) = countLinksIn entries + countLinksIn others := by
  induction entries with
  | nil => simp [countLinksIn]
  | cons e rest ih => simp [countLinksIn, ih, Nat.add_assoc]

theorem countLinksIn_map {entries : List (String × Node)} {f : String × Node → String × Node}
    (h : ∀ e ∈ entries, (f e).2.countLinks = e.2.countLinks) :
    countLinksIn (entries.map f) = countLinksIn entries := by
  induction entries with
  | nil => rfl
  | cons e rest ih =>
      simp only [List.map_cons, countLinksIn]
      rw [h e (List.mem_cons_self ..), ih fun e he => h e (List.mem_cons_of_mem _ he)]

section Put

variable {n : Node} {place : Location} {mode : Mode} {entries : List (String × Node)}
  {name : String} {new : Node}

/-- In a well-formed directory the entry that a name leads to is the only one of this name. -/
theorem eq_of_entryNamed? (h : wellFormedIn entries = true)
    (hentry : entryNamed? entries name = some new) {e : String × Node} (he : e ∈ entries)
    (hname : e.1 = name) : e.2 = new := by
  obtain ⟨first, m⟩ := e
  obtain rfl : first = name := hname
  have hself := entryNamed?_eq_of_mem h he
  exact (Option.some.inj (hentry.symm.trans hself)).symm

theorem get?_put_self (h : n.get? place = some (.directory mode entries)) :
    (n.changeEntries (fun es => putEntry es name new) place).get? place =
      some (.directory mode (putEntry entries name new)) := by
  induction place generalizing n with
  | nil =>
      obtain rfl : n = .directory mode entries := by simpa [get?] using h
      rfl
  | cons first rest ih =>
      cases n with
      | directory m es =>
          simp only [get?, changeEntries] at h ⊢
          rw [entryNamed?_map es first first fun below =>
            changeEntries (fun es => putEntry es name new) below rest]
          cases hentry : entryNamed? es first with
          | none => simp [hentry] at h
          | some found =>
              simp only [hentry, ↓reduceIte, Option.map_some] at h ⊢
              exact ih h
      | _ => simp [get?] at h

theorem get?_put_elsewhere (h : n.get? place = some (.directory mode entries))
    (hvacant : entryNamed? entries name = none) (hnew : ∀ loc ≠ [], new.get? loc = none)
    {loc : Location} (hloc : loc ≠ place ++ [name]) :
    Option.Rel Kin (n.get? loc)
      ((n.changeEntries (fun es => putEntry es name new) place).get? loc) := by
  induction place generalizing n loc with
  | nil =>
      obtain rfl : n = .directory mode entries := by simpa [get?] using h
      cases loc with
      | nil => exact .some .directory
      | cons first rest =>
          simp only [changeEntries, get?, entryNamed?_putEntry]
          by_cases hname : name = first
          · subst hname
            have hrest : rest ≠ [] := fun heq => hloc (by rw [heq, List.nil_append])
            simp only [hvacant, ↓reduceIte, hnew rest hrest]
            exact .none
          · simp only [if_neg hname]
            exact Kin.rel_refl _
  | cons first rest ih =>
      cases n with
      | directory m es =>
          cases loc with
          | nil => exact .some .directory
          | cons step loc =>
              simp only [get?, changeEntries] at h ⊢
              rw [entryNamed?_map es first step fun below =>
                changeEntries (fun es => putEntry es name new) below rest]
              by_cases hstep : step = first
              · subst hstep
                cases hentry : entryNamed? es step with
                | none => exact .none
                | some found =>
                    simp only [hentry, ↓reduceIte, Option.map_some] at h ⊢
                    exact ih h fun heq => hloc (by rw [heq, List.cons_append])
              · simp only [if_neg hstep, Option.map_id, id]
                exact Kin.rel_refl _
      | _ => simp [get?] at h

theorem wellFormed_put (hn : n.wellFormed = true)
    (h : n.get? place = some (.directory mode entries))
    (hvacant : entryNamed? entries name = none) (hname : FileSystem.isEntryName name = true)
    (hnew : new.wellFormed = true) :
    (n.changeEntries (fun es => putEntry es name new) place).wellFormed = true := by
  induction place generalizing n with
  | nil =>
      obtain rfl : n = .directory mode entries := by simpa [get?] using h
      rw [changeEntries, wellFormed, putEntry_of_vacant new hvacant]
      exact wellFormedIn_append (by simpa [wellFormed] using hn) hname
        (entryNamed?_eq_none_iff.mp hvacant) hnew
  | cons first rest ih =>
      cases n with
      | directory m es =>
          have hes : wellFormedIn es = true := by simpa [wellFormed] using hn
          simp only [get?] at h
          cases hentry : entryNamed? es first with
          | none => simp [hentry] at h
          | some found =>
              simp only [hentry] at h
              rw [changeEntries, wellFormed]
              refine wellFormedIn_map (fun e _ => by split <;> rfl) (fun e he => ?_) hes
              split
              · rename_i hfirst
                rw [eq_of_entryNamed? hes hentry he (beq_iff_eq.mp hfirst)]
                exact ih (wellFormed_of_mem hes (mem_of_entryNamed? hentry)).2 h
              · have hmem : (e.1, e.2) ∈ es := he
                exact (wellFormed_of_mem hes hmem).2
      | _ => simp [get?] at h

theorem countLinks_put (hn : n.wellFormed = true)
    (h : n.get? place = some (.directory mode entries))
    (hvacant : entryNamed? entries name = none) (hnew : new.countLinks = 0) :
    (n.changeEntries (fun es => putEntry es name new) place).countLinks = n.countLinks := by
  induction place generalizing n with
  | nil =>
      obtain rfl : n = .directory mode entries := by simpa [get?] using h
      rw [changeEntries, putEntry_of_vacant new hvacant, countLinks, countLinks,
        countLinksIn_append]
      simp [countLinksIn, hnew]
  | cons first rest ih =>
      cases n with
      | directory m es =>
          have hes : wellFormedIn es = true := by simpa [wellFormed] using hn
          simp only [get?] at h
          cases hentry : entryNamed? es first with
          | none => simp [hentry] at h
          | some found =>
              simp only [hentry] at h
              rw [changeEntries, countLinks, countLinks]
              refine countLinksIn_map fun e he => ?_
              split
              · rename_i hfirst
                have hfound := eq_of_entryNamed? hes hentry he (beq_iff_eq.mp hfirst)
                rw [hfound]
                exact ih (wellFormed_of_mem hes (mem_of_entryNamed? hentry)).2 h
              · rfl
      | _ => simp [get?] at h

end Put

end Node

namespace FileSystem

open Node YamlCheck.Path

/-- The second of two file systems has one more file, with these bytes, and is otherwise the same.
The file is in a directory that had no entry of its name. -/
structure Gains (fs fs' : FileSystem) (place : Location) (name : String) (bytes : List UInt8) :
    Prop where
  before : fs.WellFormed
  after : fs'.WellFormed
  searchable : ∃ mode entries, fs.node? place = some (.directory mode entries) ∧ mode.search = true
  vacant : fs.node? (place ++ [name]) = none
  there : fs'.node? (place ++ [name]) = some (.file .ofFile bytes)
  elsewhere : ∀ loc, loc ≠ place ++ [name] → Option.Rel Kin (fs.node? loc) (fs'.node? loc)
  links : fs'.root.countLinks = fs.root.countLinks

theorem gains_put {fs : FileSystem} (hfs : fs.WellFormed) {place : Location} {name : String}
    {mode : Mode} {entries : List (String × Node)}
    (hplace : fs.node? place = some (.directory mode entries)) (hsearch : mode.search = true)
    (hvacant : entryNamed? entries name = none) (hname : isEntryName name = true)
    (bytes : List UInt8) :
    Gains fs (fs.put place name (.file .ofFile bytes)) place name bytes where
  before := hfs
  after := wellFormed_put hfs hplace hvacant hname rfl
  searchable := ⟨mode, entries, hplace, hsearch⟩
  vacant := by rw [node?_snoc hplace, hvacant]
  there := by
    have hself : (fs.put place name (.file .ofFile bytes)).node? place = _ := get?_put_self hplace
    rw [node?_snoc hself, entryNamed?_putEntry, if_pos rfl]
  elsewhere loc hloc := by
    have hbelow : ∀ loc ≠ [], get? (.file .ofFile bytes) loc = none := by
      intro loc hne
      cases loc with
      | nil => exact absurd rfl hne
      | cons first rest => rfl
    exact get?_put_elsewhere hplace hvacant hbelow hloc
  links := countLinks_put hfs hplace hvacant rfl

namespace Gains

variable {fs fs' : FileSystem} {place : Location} {name : String} {bytes : List UInt8}

theorem isEntryName (h : Gains fs fs' place name bytes) : isEntryName name = true :=
  isEntryName_of_node? h.after h.there

theorem isPlain (h : Gains fs fs' place name bytes) : isPlain name = true := by
  have hentry := h.isEntryName
  simp only [FileSystem.isEntryName, Bool.and_eq_true] at hentry
  rw [Path.isPlain, Bool.and_eq_true]
  exact hentry.1.1.1

theorem isSome_of_ne (h : Gains fs fs' place name bytes) {loc : Location} {n : Node}
    (hnode : fs.node? loc = some n) : loc ≠ place ++ [name] := by
  rintro rfl
  rw [h.vacant] at hnode
  cases hnode

/-- What was at a location is there still, but for the entries of a directory. -/
theorem node? (h : Gains fs fs' place name bytes) {loc : Location} {n : Node}
    (hnode : fs.node? loc = some n) : ∃ n', fs'.node? loc = some n' ∧ n.Kin n' := by
  have hrel := h.elsewhere loc (h.isSome_of_ne hnode)
  rw [hnode] at hrel
  generalize fs'.node? loc = found at hrel
  cases hrel with
  | some hkin => exact ⟨_, rfl, hkin⟩

theorem node?_directory (h : Gains fs fs' place name bytes) {loc : Location} {mode : Mode}
    {entries : List (String × Node)} (hnode : fs.node? loc = some (.directory mode entries)) :
    ∃ entries', fs'.node? loc = some (.directory mode entries') := by
  obtain ⟨n', hnode', hkin⟩ := h.node? hnode
  cases hkin with
  | same => exact ⟨entries, hnode'⟩
  | directory => exact ⟨_, hnode'⟩

/-! ## Turns and walks -/

/-- All turns are the same but the one to the new file, and those behind it. -/
theorem turn_or (h : Gains fs fs' place name bytes) {loc : Location} {n : Node}
    (hnode : fs.node? loc = some n) (piece : String) :
    fs'.turn loc piece = fs.turn loc piece ∨
      loc = place ∧ piece = name ∧ fs.turn loc piece = .vacant ∧
        fs'.turn loc piece = .onward (place ++ [name]) := by
  obtain ⟨n', hnode', hkin⟩ := h.node? hnode
  cases n with
  | directory mode entries =>
      obtain ⟨entries', hsame⟩ := h.node?_directory hnode
      by_cases hnew : loc ++ [piece] = place ++ [name]
      · obtain ⟨rfl, hpiece⟩ := List.append_inj' hnew rfl
        obtain rfl : piece = name := List.singleton_inj.mp hpiece
        obtain ⟨m, es, hdirectory, hsearch⟩ := h.searchable
        cases hnode.symm.trans hdirectory
        have hlong : ¬ nameLimit < byteLength piece := by
          have hentry := h.isEntryName
          simp only [FileSystem.isEntryName, Bool.and_eq_true, decide_eq_true_eq] at hentry
          omega
        refine .inr ⟨rfl, rfl, ?_, ?_⟩
        · simp [turn_plain hnode h.isPlain, hsearch, hlong, h.vacant]
        · simp [turn_plain hsame h.isPlain, hsearch, hlong, h.there]
      · have hrel := h.elsewhere _ hnew
        left
        unfold turn
        simp only [hnode, hsame, ← node?_snoc hnode, ← node?_snoc hsame]
        generalize fs.node? (loc ++ [piece]) = found at hrel ⊢
        generalize fs'.node? (loc ++ [piece]) = found' at hrel ⊢
        cases hrel with
        | none => rfl
        | some hkin => cases hkin <;> rfl
  | _ =>
      cases hkin
      left
      unfold turn
      rw [hnode, hnode']

/-- How what a walk comes to may change: a walk to the vacant entry finds the new file, and a walk
beyond it is refused for another reason. -/
inductive Leads (place : Location) (name : String) : Except Refusal Found → Except Refusal Found →
    Prop
  | same (r : Except Refusal Found) : Leads place name r r
  | found : Leads place name (.ok (.vacant place name)) (.ok (.there (place ++ [name])))
  | beyond : Leads place name (.error .missing) (.error .notDirectory)

theorem exists_of_turn_onward {loc next : Location} {n : Node} {piece : String}
    (hnode : fs.node? loc = some n) (hturn : fs.turn loc piece = .onward next) :
    ∃ m, fs.node? next = some m := by
  rcases piece_cases piece with hidle | rfl | hplain
  · rw [turn_idle hturn hidle]
    exact ⟨n, hnode⟩
  · rw [turn_up hturn]
    cases loc using List.reverseRecOn with
    | nil => exact ⟨n, hnode⟩
    | append_singleton front last =>
        unfold FileSystem.node? at hnode ⊢
        rw [List.dropLast_concat]
        rw [get?_append, Option.bind_eq_some_iff] at hnode
        obtain ⟨m, hm, -⟩ := hnode
        exact ⟨m, hm⟩
  · obtain ⟨-, m, hm, -⟩ := turn_onward hturn hplain
    exact ⟨m, hm⟩

/-- The step of `walk_leads` along a path, given what the walks behind links come to. -/
theorem walk_leads_along (h : Gains fs fs' place name bytes) {followLast : Bool} {links : Nat}
    (henter : ∀ start n pieces, fs.node? start = some n →
      Leads place name (fs.enter followLast links start pieces)
        (fs'.enter followLast links start pieces))
    {loc : Location} {n : Node} (hnode : fs.node? loc = some n) (pieces : List String) :
    Leads place name (fs.walk followLast links loc pieces)
      (fs'.walk followLast links loc pieces) := by
  induction pieces generalizing loc n with
  | nil =>
      rw [walk_nil, walk_nil]
      exact .same _
  | cons piece rest ih =>
      rw [walk_cons, walk_cons]
      rcases h.turn_or hnode piece with hsame | ⟨rfl, rfl, hvacant, hfound⟩
      · rw [hsame]
        cases hturn : fs.turn loc piece with
        | onward next =>
            obtain ⟨m, hm⟩ := exists_of_turn_onward hnode hturn
            exact ih hm
        | link target =>
            have hstart : ∃ m, fs.node? (startOf loc target) = some m := by
              unfold startOf
              split
              · exact ⟨n, hnode⟩
              · exact ⟨fs.root, rfl⟩
            obtain ⟨m, hm⟩ := hstart
            simp only
            split
            · exact .same _
            · exact henter _ m _ hm
        | vacant => exact .same _
        | refused r => exact .same _
      · rw [hvacant, hfound]
        cases rest with
        | nil =>
            simp only [List.isEmpty_nil, ↓reduceIte, walk_nil]
            exact .found
        | cons next rest =>
            have hbehind : fs'.turn (loc ++ [piece]) next = .refused .notDirectory := by
              simp [turn, h.there]
            simp only [List.isEmpty_cons, Bool.false_eq_true, ↓reduceIte, walk_cons, hbehind]
            exact .beyond

theorem walk_leads (h : Gains fs fs' place name bytes) (followLast : Bool) (links : Nat)
    {loc : Location} {n : Node} (hnode : fs.node? loc = some n) (pieces : List String) :
    Leads place name (fs.walk followLast links loc pieces)
      (fs'.walk followLast links loc pieces) := by
  induction links generalizing loc n pieces with
  | zero => exact h.walk_leads_along (fun _ _ _ _ => .same _) hnode pieces
  | succ links ih =>
      have henter : ∀ start n pieces, fs.node? start = some n →
          Leads place name (fs.enter followLast (links + 1) start pieces)
            (fs'.enter followLast (links + 1) start pieces) :=
        fun _ _ pieces hstart => ih hstart pieces
      exact h.walk_leads_along henter hnode pieces

theorem find_leads (h : Gains fs fs' place name bytes) (followLast : Bool) (p : Path) :
    Leads place name (fs.find followLast p) (fs'.find followLast p) := by
  unfold find
  split
  · exact .same _
  split
  · exact .same _
  · exact h.walk_leads followLast linkLimit (n := fs.root) rfl p.names

/-! ## Requests -/

/-- How what is found at a path may change. -/
inductive Sees (bytes : List UInt8) : Except Refusal Node → Except Refusal Node → Prop
  | kin {n n' : Node} : n.Kin n' → Sees bytes (.ok n) (.ok n')
  | refused (r : Refusal) : Sees bytes (.error r) (.error r)
  | found : Sees bytes (.error .missing) (.ok (.file .ofFile bytes))
  | beyond : Sees bytes (.error .missing) (.error .notDirectory)

theorem lookUp_sees (h : Gains fs fs' place name bytes) (followLast : Bool) (p : Path) :
    Sees bytes (fs.lookUp followLast p) (fs'.lookUp followLast p) := by
  have hfind := h.find_leads followLast p
  simp only [lookUp, locate, bind, Except.bind]
  generalize fs.find followLast p = r at hfind ⊢
  generalize fs'.find followLast p = r' at hfind ⊢
  cases hfind with
  | found =>
      simp only [h.there]
      exact .found
  | beyond => exact .beyond
  | same =>
      cases r with
      | error e => exact .refused e
      | ok found =>
          cases found with
          | vacant directory other => exact .refused _
          | there loc =>
              by_cases hloc : loc = place ++ [name]
              · subst hloc
                simp only [h.vacant, h.there]
                exact .found
              · have hrel := h.elsewhere loc hloc
                simp only
                generalize fs.node? loc = found at hrel ⊢
                generalize fs'.node? loc = found' at hrel ⊢
                cases hrel with
                | none => exact .refused _
                | some hkin => exact .kin hkin

theorem locate_eq_ok (h : Gains fs fs' place name bytes) {followLast : Bool} {p : Path}
    {loc : Location} (hloc : fs.locate followLast p = .ok loc) :
    fs'.locate followLast p = .ok loc := by
  have hfind := h.find_leads followLast p
  unfold locate at hloc ⊢
  generalize fs.find followLast p = r at hfind hloc
  generalize fs'.find followLast p = r' at hfind ⊢
  cases hfind with
  | same => exact hloc
  | found => cases hloc
  | beyond => cases hloc

theorem lookUp_eq_ok (h : Gains fs fs' place name bytes) {followLast : Bool} {p : Path} {n : Node}
    (hlook : fs.lookUp followLast p = .ok n) :
    ∃ n', fs'.lookUp followLast p = .ok n' ∧ n.Kin n' := by
  have hsees := h.lookUp_sees followLast p
  rw [hlook] at hsees
  generalize fs'.lookUp followLast p = r' at hsees
  cases hsees with
  | kin hkin => exact ⟨_, rfl, hkin⟩

theorem isDirectory_eq_ok (h : Gains fs fs' place name bytes) {p : Path} {b : Bool}
    (hp : fs.isDirectory p = .ok b) : fs'.isDirectory p = .ok b := by
  have hsees := h.lookUp_sees true p
  unfold isDirectory isKind at hp ⊢
  generalize fs.lookUp true p = r at hsees hp
  generalize fs'.lookUp true p = r' at hsees ⊢
  cases hsees with
  | kin hkin => simpa only [hkin.isDirectory_eq] using hp
  | refused => exact hp
  | found => exact hp
  | beyond => exact hp

/-- What is a regular file is one still, and what is none is none or the new one. -/
theorem isFile_or (h : Gains fs fs' place name bytes) {p : Path} {b : Bool}
    (hp : fs.isFile p = .ok b) :
    fs'.isFile p = .ok b ∨
      b = false ∧ fs'.isFile p = .ok true ∧ fs'.lookUp true p = .ok (.file .ofFile bytes) := by
  have hsees := h.lookUp_sees true p
  unfold isFile isKind at hp ⊢
  generalize fs.lookUp true p = r at hsees hp
  generalize fs'.lookUp true p = r' at hsees ⊢
  cases hsees with
  | kin hkin => exact .inl (by simpa only [hkin.isFile_eq] using hp)
  | refused => exact .inl hp
  | found => exact .inr ⟨(Except.ok.inj hp).symm, rfl, rfl⟩
  | beyond => exact .inl hp

theorem read_eq_ok (h : Gains fs fs' place name bytes) {p : Path} {content : List UInt8}
    (hp : fs.read p = .ok content) : fs'.read p = .ok content := by
  have hsees := h.lookUp_sees true p
  unfold read at hp ⊢
  generalize fs.lookUp true p = r at hsees hp
  generalize fs'.lookUp true p = r' at hsees ⊢
  cases hsees with
  | kin hkin =>
      cases hkin with
      | same => exact hp
      | directory => cases hp
  | refused => cases hp
  | found => cases hp
  | beyond => cases hp

end Gains

end FileSystem

end YamlCheck
