import Mathlib.Algebra.GroupWithZero.Nat
import YamlCheck.Proofs.FileSystem.Sought
import YamlCheck.Proofs.FileSystem.Tracing

/-!
# Resolving search paths

A search path is resolved to the canonical path of what the operating system finds at it.  There is
one exception: a short path may lead through a link to something whose canonical path is longer than
any path may be, and then resolving fails.
-/

namespace YamlCheck.FileSystem

open YamlCheck.Path YamlCheck.Text

variable {fs : FileSystem}

/-! ## Canonical paths -/

theorem canonical_isCanonical {p : Path} {loc : Location} (h : fs.canonical p = .ok loc) :
    Canonical fs loc := by
  unfold canonical at h
  split at h
  · rename_i stop htrace
    cases h
    exact traceIn_canonical Canonical.nil htrace
  · cases h
  · split at h <;> cases h

theorem canonical_pathOf {loc : Location} (h : Canonical fs loc) :
    fs.canonical (pathOf loc) = .ok loc := by
  have htrace : fs.trace true [] (pathOf loc).names = .done loc := by
    rw [trace, traceIn_eq_traceWith]
    exact traceWith_straight h
  rw [canonical, htrace]

/-- What the operating system finds at a path is found canonically, unless something on the way has
a path that is too long. -/
theorem canonical_of_locate {p : Path} {loc : Location} (hfs : fs.WellFormed)
    (h : fs.locate true p = .ok loc) :
    fs.canonical p = .ok loc ∨
      ∃ far, fs.canonical p = .error (.nameTooLong, far) ∧
        pathLimit < byteLength (pathOf far).text := by
  obtain ⟨-, hwalk⟩ := locate_ok h
  have hreaches : Reaches fs linkLimit [] p.names loc := reaches_of_walk hwalk
  have hcomes : (fs.trace true [] p.names).ComesTo loc :=
    traceIn_comesTo hfs (Nat.le_add_left _ _) (fun _ _ _ hmem => by simp at hmem) Canonical.nil
      hreaches
  unfold canonical
  rcases hcomes with hdone | ⟨far, hfar, hlong⟩
  · exact .inl (by rw [hdone])
  · exact .inr ⟨far, by rw [hfar], hlong⟩

/-! ## Resolved paths -/

theorem resolve_eq_ok {path : Letters} {directory p : Path}
    (h : fs.resolve path directory = .ok p) :
    ∃ loc, p = pathOf loc ∧ Canonical fs loc ∧ (Sought.ofLetters path).odd = none ∧
      fs.canonical (directory.join (Sought.ofLetters path).front) = .ok loc := by
  obtain ⟨hodd, loc, hp, hcanonical⟩ := resolve_eq_ok_iff.mp h
  exact ⟨loc, hp, canonical_isCanonical hcanonical, hodd, hcanonical⟩

/-- The path of a canonical location is resolved to itself, wherever this is asked. -/
theorem resolve_text {loc : Location} (hfs : fs.WellFormed) (h : Canonical fs loc)
    (directory : Path) : fs.resolve (pathOf loc).text directory = .ok (pathOf loc) := by
  have hjoin : directory.join (pathOf loc) = pathOf loc := by simp [join, isAbsolute, pathOf]
  have hsought := Sought.ofLetters_ofText (pathOf loc).text
  rw [h.ofText_text hfs] at hsought
  apply resolve_of_canonical (by rw [hsought])
  rw [hsought, hjoin]
  exact canonical_pathOf h

/-- A path is absolute, names something that is there, has no name that stands for a directory it
does not name, leads through no link, and is resolved to itself. -/
structure Resolved (fs : FileSystem) (p : Path) : Prop where
  absolute : p.isAbsolute = true
  plain : ∀ name ∈ p.names, name ≠ "" ∧ name ≠ "." ∧ name ≠ ".."
  linkFree : ∀ front name, front ++ [name] <+: p.names →
    ∃ n, fs.lookUp false { p with names := front ++ [name] } = .ok n ∧ ∀ target, n ≠ .link target
  there : ∃ n, fs.lookUp true p = .ok n
  again : ∀ directory, fs.resolve p.text directory = .ok p

theorem Canonical.resolved {loc : Location} (h : Canonical fs loc) (hfs : fs.WellFormed) :
    Resolved fs (pathOf loc) where
  absolute := rfl
  plain _ hname := isPlain_iff.mp (h.isPlain_of_mem hname)
  linkFree front name hleading := (h front name hleading).2
  there := by
    obtain ⟨n, hnode⟩ := h.node?_isSome
    exact ⟨n, by simp [lookUp, bind, Except.bind, h.locate_eq, hnode]⟩
  again := resolve_text hfs h

/-- How resolving a path fails if what it leads to, or something on the way there, has a path that
is too long. -/
def tooLongAt (path : Letters) (far : Location) : Stop :=
  let error := Refusal.nameTooLong.incident (pathOf far)
  .failure (.resolution path error.text (some error))

theorem resolve_of_tooLong {path : Letters} {directory : Path} {far : Location}
    (h : fs.canonical (directory.join (Sought.ofLetters path).front) = .error (.nameTooLong, far)) :
    fs.resolve path directory = .error (tooLongAt path far) :=
  resolve_of_refusal h

/-- Resolving comes to an end: more levels of links than there are would change nothing.  What it
comes to is resolved for good.  And where the operating system finds something, it comes to the path
of this very thing, unless a path on the way is too long.  Nothing is found at, or resolved from, a
search path with an odd piece. -/
theorem resolve_canonical_faithful (hfs : fs.WellFormed) (path : Letters) (directory : Path) :
    let sought := Sought.ofLetters path
    let candidate := directory.join sought.front
    (∀ more, fs.traceIn true (fs.root.countLinks + linkLimit + more) [] [] candidate.names =
        fs.trace true [] candidate.names) ∧
      (∀ p, fs.resolve path directory = .ok p → sought.odd = none ∧ Resolved fs p) ∧
      ∀ loc, sought.odd = none → fs.locate true candidate = .ok loc →
        (∃ p, fs.resolve path directory = .ok p ∧ fs.locate true p = .ok loc) ∨
          ∃ far, fs.resolve path directory = .error (tooLongAt path far) ∧
            pathLimit < byteLength (pathOf far).text := by
  intro sought candidate
  refine ⟨?_, ?_, ?_⟩
  · intro more
    exact traceIn_levels more List.nodup_nil (by simp) (by simp) Canonical.nil _
  · intro p hp
    obtain ⟨loc, rfl, hcanonical, hodd, -⟩ := resolve_eq_ok hp
    exact ⟨hodd, hcanonical.resolved hfs⟩
  · intro loc hodd hloc
    rcases canonical_of_locate hfs hloc with hok | ⟨far, hfar, hlong⟩
    · have hcanonical := canonical_isCanonical hok
      exact .inl ⟨pathOf loc, resolve_of_canonical hodd hok, hcanonical.locate_eq true⟩
    · exact .inr ⟨far, resolve_of_tooLong hfar, hlong⟩

def linkedTree : FileSystem where
  root := .directory .ofDirectory
    [("project", .directory .ofDirectory [("here", .link "../shared/conf")]),
      ("shared", .directory .ofDirectory
        [("conf", .directory .ofDirectory []), ("a.yaml", .file .ofFile [])])]

/-- A name for the parent behind a link leads out of the directory that the link leads to. -/
theorem linkedTree_resolved :
    linkedTree.WellFormed ∧
      linkedTree.resolve "here/../a.yaml" ⟨.slash, ["project"]⟩ =
        .ok ⟨.slash, ["shared", "a.yaml"]⟩ ∧
        Resolved linkedTree ⟨.slash, ["shared", "a.yaml"]⟩ := by
  have hfs : linkedTree.WellFormed := by decide +kernel
  have hcanonical : linkedTree.canonical ⟨.slash, ["project", "here", "..", "a.yaml"]⟩ =
      .ok ["shared", "a.yaml"] := by decide +kernel
  have hresolve : linkedTree.resolve "here/../a.yaml" ⟨.slash, ["project"]⟩ =
      .ok ⟨.slash, ["shared", "a.yaml"]⟩ :=
    resolve_ofText hcanonical
  obtain ⟨-, hresolved, -⟩ :=
    resolve_canonical_faithful hfs "here/../a.yaml" ⟨.slash, ["project"]⟩
  exact ⟨hfs, hresolve, (hresolved _ hresolve).2⟩

/-! ## A short path to something deep -/

theorem size_append (front back : List Char) :
    Utf8.size (front ++ back) = Utf8.size front + Utf8.size back := by
  induction front with
  | nil => simp [Utf8.size]
  | cons c front ih => simp [Utf8.size, ih, Nat.add_assoc]

theorem size_intercalate (name : List Char) (others : List (List Char)) :
    Utf8.size (['/'].intercalate (name :: others)) =
      Utf8.size name + (others.map fun other => 1 + Utf8.size other).sum := by
  induction others generalizing name with
  | nil => simp
  | cons other others ih =>
      rw [List.intercalate_cons_cons, size_append, size_append, ih, List.map_cons, List.sum_cons]
      simp only [Utf8.size, show Utf8.width '/' = 1 from rfl]
      omega

/-- The length of a path is that of its names, each with a slash. -/
theorem byteLength_pathOf {loc : Location} (h : loc ≠ []) :
    byteLength (pathOf loc).text = (loc.map fun name => 1 + byteLength name).sum := by
  cases loc with
  | nil => exact absurd rfl h
  | cons name names =>
      have htext : (pathOf (name :: names)).text.toList =
          '/' :: ['/'].intercalate (name.toList :: names.map String.toList) := by
        simp [pathOf, text, Root.text, String.toList_intercalate]
      rw [byteLength, htext, Utf8.size, size_intercalate, List.map_cons, List.sum_cons,
        List.map_map, show Utf8.width '/' = 1 from rfl, Nat.add_assoc]
      rfl

/-- The longest of names. -/
def longName : String := String.ofList (List.replicate nameLimit 'd')

/-- Directories inside each other, all with this name. -/
def nested : Nat → Node
  | 0 => .directory .ofDirectory []
  | depth + 1 => .directory .ofDirectory [(longName, nested depth)]

/-- Sixteen nested directories, and a link to the fifteenth. -/
def deepTree : FileSystem where
  root := .directory .ofDirectory
    [(longName, nested 15), ("l", .link ("/".intercalate (List.replicate 15 longName)))]

theorem toList_longName : longName.toList = List.replicate nameLimit 'd' := String.toList_ofList

theorem byteLength_longName : byteLength longName = nameLimit := by
  rw [byteLength, toList_longName]
  decide +kernel

theorem longName_ne {short : String} (h : byteLength short ≠ nameLimit) : longName ≠ short := by
  intro heq
  rw [← heq] at h
  exact h byteLength_longName

theorem isPlain_longName : isPlain longName = true :=
  isPlain_iff.mpr
    ⟨longName_ne (by decide), longName_ne (by decide), longName_ne (by decide)⟩

theorem isEntryName_longName : isEntryName longName = true := by
  have hplain := isPlain_longName
  rw [isPlain, Bool.and_eq_true] at hplain
  simp [isEntryName, hplain.1, hplain.2, byteLength_longName, toList_longName]

theorem nested_wellFormed (depth : Nat) : (nested depth).wellFormed = true := by
  induction depth with
  | zero => rfl
  | succ depth ih =>
      simp [nested, Node.wellFormed, Node.wellFormedIn, isEntryName_longName, ih]

theorem get?_nested (depth more : Nat) :
    (nested (depth + more)).get? (List.replicate depth longName) = some (nested more) := by
  induction depth with
  | zero => simp [Node.get?]
  | succ depth ih =>
      rw [List.replicate_succ, Nat.add_right_comm]
      simp [nested, Node.get?, Node.entryNamed?, ih]

theorem deepTree_wellFormed : deepTree.WellFormed := by
  have hother : longName ≠ "l" := longName_ne (by decide)
  have hl : isEntryName "l" = true := by decide +kernel
  simp [WellFormed, deepTree, Node.wellFormed, Node.wellFormedIn, isEntryName_longName,
    nested_wellFormed, hl, hother]

theorem node?_deepTree {depth : Nat} (h : depth ≤ 15) :
    deepTree.node? (List.replicate (depth + 1) longName) = some (nested (15 - depth)) := by
  have hnested := get?_nested depth (15 - depth)
  rw [Nat.add_sub_cancel' h] at hnested
  rw [node?, List.replicate_succ]
  simp [deepTree, Node.get?, Node.entryNamed?, hnested]

theorem nested_eq (depth : Nat) : ∃ entries, nested depth = .directory .ofDirectory entries := by
  cases depth <;> exact ⟨_, rfl⟩

/-- One more step down. -/
theorem turn_nested {fs : FileSystem} {depth more : Nat} {entries : List (String × Node)}
    (hhere : fs.node? (List.replicate depth longName) = some (.directory .ofDirectory entries))
    (hbelow : fs.node? (List.replicate (depth + 1) longName) = some (nested more)) :
    fs.turn (List.replicate depth longName) longName =
      .onward (List.replicate (depth + 1) longName) := by
  obtain ⟨below, hnested⟩ := nested_eq more
  have hsnoc : List.replicate depth longName ++ [longName] =
      List.replicate (depth + 1) longName := List.replicate_succ'.symm
  have hsearch : Mode.ofDirectory.search = true := rfl
  rw [turn_plain hhere isPlain_longName, hsnoc, hbelow, hnested]
  simp [hsearch, byteLength_longName]

theorem turn_deepTree {depth : Nat} (h : depth ≤ 15) :
    deepTree.turn (List.replicate depth longName) longName =
      .onward (List.replicate (depth + 1) longName) := by
  have hhere : ∃ entries, deepTree.node? (List.replicate depth longName) =
      some (.directory .ofDirectory entries) := by
    cases depth with
    | zero => exact ⟨_, rfl⟩
    | succ depth =>
        obtain ⟨entries, hentries⟩ := nested_eq (15 - depth)
        exact ⟨entries, by rw [node?_deepTree (by omega), hentries]⟩
  obtain ⟨entries, hhere⟩ := hhere
  exact turn_nested hhere (node?_deepTree h)

theorem reaches_deepTree {depth more links : Nat} (h : depth + more ≤ 16) :
    Reaches deepTree links (List.replicate depth longName) (List.replicate more longName)
      (List.replicate (depth + more) longName) := by
  induction more generalizing depth with
  | zero => exact .here _ _
  | succ more ih =>
      have hrest := ih (show depth + 1 + more ≤ 16 by omega)
      rw [Nat.add_right_comm] at hrest
      exact .onward (turn_deepTree (by omega)) hrest

/-- The operating system finds the innermost directory through the link. -/
theorem locate_deepTree :
    deepTree.locate true ⟨.slash, ["l", longName]⟩ = .ok (List.replicate 16 longName) := by
  have hturn : deepTree.turn [] "l" = .link ("/".intercalate (List.replicate 15 longName)) := by
    have hother : longName ≠ "l" := longName_ne (by decide)
    have hnode : deepTree.node? ([] ++ ["l"]) =
        some (.link ("/".intercalate (List.replicate 15 longName))) := by
      simp [node?, deepTree, Node.get?, Node.entryNamed?, hother]
    have hroot : ∃ entries, deepTree.node? [] = some (.directory .ofDirectory entries) := ⟨_, rfl⟩
    obtain ⟨entries, hroot⟩ := hroot
    have hsearch : Mode.ofDirectory.search = true := rfl
    have hshort : ¬ nameLimit < byteLength "l" := by decide
    rw [turn_plain hroot (by decide), hnode]
    simp [hsearch, hshort]
  have hslash : ∀ other ∈ List.replicate 15 longName, '/' ∉ other.toList := by
    intro other hother
    rw [List.eq_of_mem_replicate hother, toList_longName]
    simp
  have hpieces : allPieces ("/".intercalate (List.replicate 15 longName)).toList =
      List.replicate 15 longName := allPieces_intercalate hslash
  have hstart : ∀ target, startOf [] target = [] := by
    intro target
    unfold startOf
    split <;> rfl
  have hreaches : Reaches deepTree (39 + 1) [] ["l", longName] (List.replicate 16 longName) := by
    refine .link hturn ?_
    rw [hpieces, hstart, ← List.replicate_succ']
    exact @reaches_deepTree 0 16 39 (le_refl 16)
  have hfree : ∀ name ∈ ["l", longName], '\x00' ∉ name.toList := by
    simp [toList_longName]
  have hlength : byteLength (pathOf ["l", longName]).text ≤ pathLimit := by
    have hl : byteLength "l" = 1 := by decide
    rw [byteLength_pathOf (by simp)]
    simp [hl, byteLength_longName, nameLimit, pathLimit]
  exact locate_of_walk hfree hlength hreaches.walk_eq

theorem join_throughLink :
    (Path.mk .slash []).join (ofText (pathOf ["l", longName]).text) = pathOf ["l", longName] := by
  have hnames : ∀ name ∈ ["l", longName], isName name = true ∧ '/' ∉ name.toList := by
    simp [isName_of_isPlain isPlain_longName, toList_longName, show isName "l" = true by decide]
  have htext : ofText (pathOf ["l", longName]).text = pathOf ["l", longName] :=
    Legible.ofText_text hnames
  rw [htext]
  rfl

theorem resolve_throughLink :
    ∃ far, deepTree.resolve (pathOf ["l", longName]).text ⟨.slash, []⟩ =
      .error (tooLongAt (pathOf ["l", longName]).text far) := by
  rcases canonical_of_locate deepTree_wellFormed locate_deepTree with hok | ⟨far, hfar, -⟩
  · -- The canonical path has sixteen names of this length.
    have hle := (canonical_isCanonical hok).byteLength_le
    rw [byteLength_pathOf (by simp)] at hle
    simp [byteLength_longName, nameLimit, pathLimit] at hle
  · refine ⟨far, resolve_of_tooLong ?_⟩
    rw [Sought.front_ofText, join_throughLink]
    exact hfar

/-- Not everything that the operating system finds at a path can be resolved. -/
theorem deepTree_not_resolved :
    ¬ ∀ (fs : FileSystem) (path : String) (directory : Path) (loc : Location),
      fs.WellFormed → fs.locate true (directory.join (ofText path)) = .ok loc →
        ∃ p, fs.resolve path directory = .ok p ∧ fs.locate true p = .ok loc := by
  intro h
  have hfound : deepTree.locate true
      ((Path.mk .slash []).join (ofText (pathOf ["l", longName]).text)) =
        .ok (List.replicate 16 longName) := by
    rw [join_throughLink]
    exact locate_deepTree
  obtain ⟨p, hp, -⟩ := h deepTree _ _ _ deepTree_wellFormed hfound
  obtain ⟨far, hfar⟩ := resolve_throughLink
  rw [hfar] at hp
  cases hp

end YamlCheck.FileSystem
