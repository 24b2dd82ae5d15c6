import YamlCheck.Proofs.Yaml.Policy
import YamlCheck.Yaml.Load

/-!
# Streams under either policy

A stream is read in the same way under either policy, document by document; the policy only decides
how far the documents are built.  So what is yielded with repeated keys refused can be compared
document by document with what is yielded with repeated keys allowed.
-/

namespace YamlCheck.Yaml

/-- A document as it is read, before anything of it is built, and the terms on which it is. -/
structure Draft where
  terms : Terms
  graph : Graph

def Draft.document (d : Dialect) (duplicates : Duplicates) (t : Draft) :
    Except LoadError Document :=
  t.graph.document ⟨t.terms, d, duplicates⟩

/-- The documents of a stream as they are read, and the error that ends the reading. -/
structure Reading where
  drafts : List Draft
  error : Option LoadError

/-- The documents that a parser reads; `fuel` bounds their number. -/
def readFrom (limits : Limits) : Nat → Parser → Reading
  | 0, _ => ⟨[], some .stalled⟩
  | fuel + 1, p =>
    match (Parse.document? limits).run p with
    | .error e => ⟨[], some e⟩
    | .ok (none, _) => ⟨[], none⟩
    | .ok (some g, p) =>
      let later := readFrom limits fuel p
      ⟨⟨⟨limits, p.reader.schema⟩, g⟩ :: later.drafts, later.error⟩

def read (limits : Limits) (d : Dialect) (bytes : List UInt8) : Reading :=
  let s := Source.ofBytes bytes
  readFrom limits (s.chars.length + 2) (Parser.start d s)

/-- Builds documents up to the first that cannot be built. -/
def buildAll (d : Dialect) (duplicates : Duplicates) (error : Option LoadError) :
    List Draft → Loaded
  | [] => ⟨[], error⟩
  | t :: rest =>
    match t.document d duplicates with
    | .error e => .failed e
    | .ok v => (buildAll d duplicates error rest).cons v

theorem loadFrom_eq (limits : Limits) (d : Dialect) (duplicates : Duplicates) (fuel : Nat)
    (p : Parser) :
    loadFrom limits d duplicates fuel p =
      buildAll d duplicates (readFrom limits fuel p).error (readFrom limits fuel p).drafts := by
  induction fuel generalizing p with
  | zero => rfl
  | succ fuel ih =>
    unfold loadFrom readFrom
    cases (Parse.document? limits).run p with
    | error e => rfl
    | ok next =>
      obtain ⟨g, p'⟩ := next
      cases g with
      | none => rfl
      | some g =>
        simp only [buildAll, ih]
        rfl

/-- The policy only comes in once the documents are read. -/
theorem load_eq (limits : Limits) (d : Dialect) (duplicates : Duplicates) (bytes : List UInt8) :
    load limits d duplicates bytes =
      buildAll d duplicates (read limits d bytes).error (read limits d bytes).drafts :=
  loadFrom_eq limits d duplicates _ _

theorem limits_of_mem_drafts {limits : Limits} {d : Dialect} {bytes : List UInt8} {t : Draft}
    (mem : t ∈ (read limits d bytes).drafts) : t.terms.limits = limits := by
  have each : ∀ fuel p, t ∈ (readFrom limits fuel p).drafts → t.terms.limits = limits := by
    intro fuel
    induction fuel with
    | zero =>
      intro p h
      cases h
    | succ fuel ih =>
      intro p h
      unfold readFrom at h
      split at h
      · cases h
      · cases h
      · rcases List.mem_cons.mp h with rfl | h
        · rfl
        · exact ih _ h
  exact each _ _ mem

/-- A stream is accepted if it is read to its end and all of its documents can be built. -/
theorem buildAll_error_eq_none_iff {d : Dialect} {duplicates : Duplicates}
    {error : Option LoadError} {ts : List Draft} :
    (buildAll d duplicates error ts).error = none ↔
      error = none ∧ ∀ t ∈ ts, ∃ v, t.document d duplicates = .ok v := by
  induction ts with
  | nil => exact ⟨fun h => ⟨h, by simp⟩, fun h => h.1⟩
  | cons t rest ih =>
    unfold buildAll
    rw [List.forall_mem_cons]
    cases hbuilt : t.document d duplicates with
    | error e => simp [Loaded.failed]
    | ok v =>
      rw [show ((buildAll d duplicates error rest).cons v).error =
        (buildAll d duplicates error rest).error from rfl, ih]
      simp

/-! ## Rejecting more -/

/-- One way to load a stream yields no document that another one does not, and if it accepts the
stream the other one does as well, with the same documents. -/
structure Loaded.RejectsMore (strict lenient : Loaded) : Prop where
  documents : strict.documents <+: lenient.documents
  accepted : strict.error = none → lenient = strict

theorem Loaded.rejectsMore_failed (e : LoadError) (l : Loaded) : (failed e).RejectsMore l :=
  ⟨List.nil_prefix, fun h => by cases h⟩

theorem Loaded.rejectsMore_cons {v w : Document} {strict lenient : Loaded} :
    (strict.cons v).RejectsMore (lenient.cons w) ↔ w = v ∧ strict.RejectsMore lenient := by
  constructor
  · intro h
    obtain ⟨hvw, hrest⟩ := List.cons_prefix_cons.mp h.documents
    refine ⟨hvw.symm, hrest, fun hnone => ?_⟩
    have hsame := h.accepted hnone
    obtain ⟨documents, error⟩ := strict
    obtain ⟨documents', error'⟩ := lenient
    simp only [cons, mk.injEq, List.cons.injEq] at hsame
    rw [hsame.1.2, hsame.2]
  · rintro ⟨rfl, hdocuments, haccepted⟩
    refine ⟨List.cons_prefix_cons.mpr ⟨rfl, hdocuments⟩, fun hnone => ?_⟩
    rw [haccepted hnone]

/-- Documents that are built one by one: refusing repeated keys only rejects more exactly if each
document that it accepts is built alike where they are allowed. -/
theorem rejectsMore_buildAll (d : Dialect) (error : Option LoadError) (ts : List Draft) :
    (buildAll d .refused error ts).RejectsMore (buildAll d .allowed error ts) ↔
      ∀ t v, (t, v) ∈ ts.zip (buildAll d .refused error ts).documents →
        t.document d .allowed = .ok v := by
  induction ts with
  | nil => exact ⟨fun _ t v h => by simp at h, fun _ => ⟨List.prefix_rfl, fun _ => rfl⟩⟩
  | cons t rest ih =>
    unfold buildAll
    cases hstrict : t.document d .refused with
    | error e =>
      refine ⟨fun _ t v h => ?_, fun _ => Loaded.rejectsMore_failed e _⟩
      simp [Loaded.failed] at h
    | ok v =>
      have hzip : ∀ t' v', (t', v') ∈ (t :: rest).zip
          ((buildAll d .refused error rest).cons v).documents ↔
          (t' = t ∧ v' = v) ∨
            (t', v') ∈ rest.zip (buildAll d .refused error rest).documents := by
        intro t' v'
        simp [Loaded.cons]
      cases hlenient : t.document d .allowed with
      | error e =>
        constructor
        · intro h
          have hleading := h.documents
          simp [Loaded.cons, Loaded.failed] at hleading
        · intro h
          have hbuilt := h t v ((hzip t v).mpr (.inl ⟨rfl, rfl⟩))
          rw [hlenient] at hbuilt
          cases hbuilt
      | ok w =>
        simp only [Loaded.rejectsMore_cons, hzip, ih]
        constructor
        · rintro ⟨rfl, h⟩ t' v' (⟨rfl, rfl⟩ | hmem)
          · exact hlenient
          · exact h t' v' hmem
        · intro h
          have hbuilt := h t v (.inl ⟨rfl, rfl⟩)
          rw [hlenient] at hbuilt
          exact ⟨Except.ok.inj hbuilt, fun t' v' hmem => h t' v' (.inr hmem)⟩

theorem document_of_mem_zip {d : Dialect} {duplicates : Duplicates} {error : Option LoadError}
    {ts : List Draft} {t : Draft} {v : Document}
    (h : (t, v) ∈ ts.zip (buildAll d duplicates error ts).documents) :
    t.document d duplicates = .ok v := by
  induction ts with
  | nil => simp at h
  | cons t' rest ih =>
    unfold buildAll at h
    cases hbuilt : t'.document d duplicates with
    | error e => simp [hbuilt, Loaded.failed] at h
    | ok v' =>
      simp only [hbuilt, Loaded.cons, List.zip_cons_cons, List.mem_cons, Prod.mk.injEq] at h
      rcases h with ⟨rfl, rfl⟩ | hmem
      · exact hbuilt
      · exact ih hmem

/-- A document that is accepted with repeated keys refused is built alike with repeated keys
allowed, in the modern dialect always, in the classic one if its keys are settled. -/
theorem Draft.document_allowed {d : Dialect} {t : Draft} {v : Document}
    (settledKeys : d = .classic → ¬t.graph.UnsettledKeys)
    (accepted : t.document d .refused = .ok v) : t.document d .allowed = .ok v := by
  cases d with
  | classic => exact t.graph.document_allowing_of_classic (settledKeys rfl) accepted
  | modern =>
    exact Graph.document_allowing_of_modern (r := ⟨t.terms, .modern, .refused⟩) rfl accepted

/-- Refusing repeated keys only ever rejects more, in the modern dialect for every stream.  In the
classic dialect it does so exactly if each accepted document with unsettled keys is built alike
where repeated keys are allowed: documents with settled keys always are. -/
theorem load_rejectsMore_iff (limits : Limits) (d : Dialect) (bytes : List UInt8) :
    (load limits d .refused bytes).RejectsMore (load limits d .allowed bytes) ↔
      (d = .classic → ∀ t v,
        (t, v) ∈ (read limits d bytes).drafts.zip (load limits d .refused bytes).documents →
        t.graph.UnsettledKeys → t.document d .allowed = .ok v) := by
  rw [load_eq, load_eq, rejectsMore_buildAll]
  constructor
  · intro h _ t v hmem _
    exact h t v hmem
  · intro h t v hmem
    have haccepted := document_of_mem_zip hmem
    by_cases hunsettled : d = .classic ∧ t.graph.UnsettledKeys
    · exact h hunsettled.1 t v hmem hunsettled.2
    · exact Draft.document_allowed (fun hd hkeys => hunsettled ⟨hd, hkeys⟩) haccepted

/-- A text whose only key is a mapping that stands for its plain value, and that a merge key names
besides. -/
def mergedKeyText : List UInt8 :=
  "? &x !!str\n  =: foo\n: 1\n<<: *x\n".toList.map fun c => c.toNat.toUInt8

/-- The key is read as a text before the merge key takes the tag off its plain value, and cannot be
read afterwards: the stream is accepted if repeated keys are refused, and rejected if they are
allowed. -/
theorem mergedKeyText_not_rejectsMore :
    ¬(load .usual .classic .refused mergedKeyText).RejectsMore
      (load .usual .classic .allowed mergedKeyText) := by
  intro h
  have hstrict : (load .usual .classic .refused mergedKeyText).documents.length = 1 := by
    decide +kernel
  have hlenient : (load .usual .classic .allowed mergedKeyText).documents.length = 0 := by
    decide +kernel
  have hlength := h.documents.length_le
  omega

end YamlCheck.Yaml
