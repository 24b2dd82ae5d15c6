import YamlCheck.Backend
import YamlCheck.Proofs.Yaml.Built
import YamlCheck.Proofs.Yaml.Documents

/-!
# How a bad stream ends

A stream that cannot be read to its end, or a document that cannot be built, is reported as a
failure of its file.  Only a breakdown escapes, and it comes from a part of the stream that can be
named: an escape, a version, a collection inside too many others, or a node of one of its documents.
-/

namespace YamlCheck

namespace Yaml

/-! ## Breakdowns of a stream -/

/-- What ends the building of documents is an error of one of them, or what ended the reading. -/
theorem error_of_buildAll {d : Dialect} {duplicates : Duplicates} {error : Option LoadError}
    {ts : List Draft} {e : LoadError} (h : (buildAll d duplicates error ts).error = some e) :
    (∃ t ∈ ts, t.document d duplicates = .error e) ∨ error = some e := by
  induction ts with
  | nil => exact .inr h
  | cons t rest ih =>
    unfold buildAll at h
    cases hbuilt : t.document d duplicates with
    | error e' =>
      rw [hbuilt] at h
      cases h
      exact .inl ⟨t, by simp, hbuilt⟩
    | ok v =>
      rw [hbuilt] at h
      rcases ih h with ⟨t', hmem, ht'⟩ | hread
      · exact .inl ⟨t', by simp [hmem], ht'⟩
      · exact .inr hread

/-- Where a stream breaks its loading down: in its text, in a document that has too many collections
inside one another, or at a node of one of its documents. -/
inductive BreaksDown (limits : Limits) (d : Dialect) (duplicates : Duplicates)
    (bytes : List UInt8) : Breakdown → Prop
  | reading {b : Breakdown} (error : (read limits d bytes).error = some (.breakdown b))
      (fault : ParseFault d (Source.ofBytes bytes).chars b) :
      BreaksDown limits d duplicates bytes b
  | nesting {p : Parser}
      (error : (read limits d bytes).error = some (.breakdown (.tooDeep .composing)))
      (along : p.Along limits d (Source.ofBytes bytes)) (overfull : p.Overfull limits) :
      BreaksDown limits d duplicates bytes (.tooDeep .composing)
  | building {t : Draft} {b : Breakdown} (mem : t ∈ (read limits d bytes).drafts)
      (error : t.document d duplicates = .error (.breakdown b))
      (breaks : t.graph.Breaks ⟨t.terms, d, duplicates⟩ b) :
      BreaksDown limits d duplicates bytes b

theorem breaksDown_of_load {limits : Limits} {d : Dialect} {duplicates : Duplicates}
    {bytes : List UInt8} {b : Breakdown}
    (h : (load limits d duplicates bytes).error = some (.breakdown b)) :
    BreaksDown limits d duplicates bytes b := by
  rw [load_eq] at h
  rcases error_of_buildAll h with ⟨t, hmem, ht⟩ | hread
  · exact .building hmem ht (Graph.breaks_of_document ht)
  · obtain ⟨p, along, hfails | ⟨heq, overfull⟩⟩ := raises_read hread
    · exact .reading hread hfails.parseFault
    · cases heq
      exact .nesting hread along overfull

/-- The steps of a loading always suffice. -/
theorem load_not_stalled (limits : Limits) (d : Dialect) (duplicates : Duplicates)
    (bytes : List UInt8) : (load limits d duplicates bytes).error ≠ some .stalled := by
  intro h
  rw [load_eq] at h
  rcases error_of_buildAll h with ⟨t, -, ht⟩ | hread
  · have hfails : t.graph.Fails ⟨t.terms, d, duplicates⟩ .stalled := Graph.fails_of_document ht
    exact hfails.ofValue
  · obtain ⟨p, -, hfails | ⟨heq, -⟩⟩ := raises_read hread
    · rcases hfails with hscan | ⟨-, minor, heq, -⟩
      · cases hscan
      · cases heq
    · cases heq

end Yaml

/-! ## What a backend makes of it -/

namespace Backend

open YamlCheck.Yaml

/-- The incident that an error of a stream is to a checker of the file. -/
def incidentOf (d : Dialect) (file : Path) (e : LoadError) : Incident :=
  .document d { name := file.text } e

/-- Whatever error ends a stream, the file is reported with the text of the error and with the
error as the cause, unless it is a breakdown, which escapes as it is; a breakdown comes from a part
of the stream that breaks its loading down. -/
theorem stop_outcome {limits : Limits} {d : Dialect} {duplicates : Duplicates} {file : Path}
    {bytes : List UInt8} {s : Stop}
    (h : (ofDialect limits d file duplicates bytes).stop = some s) :
    ∃ e, (load limits d duplicates bytes).error = some e ∧ e ≠ .stalled ∧
      ((∃ line column, s = .failure (.file (.malformed (incidentOf d file e).text file line column
          (some (incidentOf d file e))))) ∨
        ∃ b, e = .breakdown b ∧ s = .incident (incidentOf d file e) ∧
          BreaksDown limits d duplicates bytes b) := by
  have hstop : (load limits d duplicates bytes).error.map (stopOf d { name := file.text } file) =
      some s := h
  obtain ⟨e, herror, rfl⟩ := Option.map_eq_some_iff.mp hstop
  have hends : e ≠ .stalled := by
    rintro rfl
    exact load_not_stalled limits d duplicates bytes herror
  refine ⟨e, herror, hends, ?_⟩
  cases e with
  | breakdown b => exact .inr ⟨b, rfl, rfl, breaksDown_of_load herror⟩
  | stalled => exact (hends rfl).elim
  | _ => exact .inl ⟨_, _, rfl⟩

theorem stop_of_breakdown {limits : Limits} {d : Dialect} {duplicates : Duplicates}
    {bytes : List UInt8} {b : Breakdown} (file : Path)
    (h : (load limits d duplicates bytes).error = some (.breakdown b)) :
    (ofDialect limits d file duplicates bytes).stop =
      some (.incident (incidentOf d file (.breakdown b))) := by
  unfold ofDialect
  dsimp only
  rw [h]
  rfl

/-- A text whose only document is a word for no truth value that is tagged as one. -/
def unknownWordText : List UInt8 := "!!bool x\n".toList.map fun c => c.toNat.toUInt8

/-- A breakdown is not reported as a failure of its file. -/
theorem unknownWordText_escapes :
    ¬∀ (d : Dialect) (duplicates : Duplicates) (file : Path) (bytes : List UInt8) (s : Stop),
      (ofDialect .usual d file duplicates bytes).stop = some s →
        ∃ diagnostic line column cause,
          s = .failure (.file (.malformed diagnostic file line column cause)) := by
  intro h
  have herror : (load .usual .classic .allowed unknownWordText).error =
      some (.breakdown (.unknownWord "x")) := by decide +kernel
  have hstop := stop_of_breakdown (Path.ofText "a.yaml") herror
  obtain ⟨diagnostic, line, column, cause, heq⟩ := h _ _ _ _ _ hstop
  cases heq

/-- The word is found at the node that holds it. -/
theorem unknownWordText_breaks :
    ∃ t ∈ (read .usual .classic unknownWordText).drafts,
      t.graph.Breaks ⟨t.terms, .classic, .refused⟩ (.unknownWord "x") := by
  have herror : (load .usual .classic .refused unknownWordText).error =
      some (.breakdown (.unknownWord "x")) := by decide +kernel
  have hstop := stop_of_breakdown (Path.ofText "a.yaml") herror
  obtain ⟨e, he, -, ⟨line, column, heq⟩ | ⟨b, rfl, heq, hbreaks⟩⟩ := stop_outcome hstop
  · cases heq
  · rw [herror] at he
    cases he
    cases hbreaks with
    | reading hread fault =>
      rcases fault with ⟨hb, -⟩ | ⟨hmodern, -⟩
      · cases hb
      · cases hmodern
    | building mem _ breaks => exact ⟨_, mem, breaks⟩

end Backend

end YamlCheck
