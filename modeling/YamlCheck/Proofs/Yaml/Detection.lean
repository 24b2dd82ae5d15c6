import YamlCheck.Backend
import YamlCheck.Proofs.Yaml.Breaking
import YamlCheck.Proofs.Yaml.Coverage
import YamlCheck.Proofs.Yaml.Flat

/-!
# Repeated keys are detected exactly

A document without merge keys and plain values that is accepted with repeated keys allowed is
refused if and only if one of its mappings repeats a key.  The refusal points at such a key, unless
the key is an integer with more digits than can be shown: then nothing but the complaint about the
digits is left of it.
-/

namespace YamlCheck.Yaml

variable {g : Graph} {terms : Terms}

theorem repeatedKey_of_isLong {around key : Mark} {n : Int} (long : Scalar.isLong n = true) :
    repeatedKey around key (.int n) = .badValue .longInteger := by
  rw [repeatedKey, Scalar.display, Scalar.intDisplay, if_pos long]

theorem Scalar.not_isLong_of_display {x : Scalar} {shown : String} (h : x.display = .ok shown) :
    ¬∃ n, x = .int n ∧ isLong n = true := by
  rintro ⟨n, rfl, hlong⟩
  rw [display, intDisplay, if_pos hlong] at h
  cases h

/-- What is told of a repeated key, as the failure of a file: its place, unless it is an integer
that is too long to be shown. -/
theorem stopOf_repeatedKey (o : Origin) (file : Path) (around key : Mark) (x : Scalar) :
    ((∃ c, repeatedKey around key x = .complaint .constructing c) ∧
      (¬∃ n, x = .int n ∧ Scalar.isLong n = true) ∧
      ∃ text cause, Backend.stopOf .classic o file (repeatedKey around key x) =
        .failure (.file (.malformed text file (some (Int.ofNat (key.line + 1)))
          (some (Int.ofNat (key.column + 1))) cause))) ∨
    ((∃ n, x = .int n ∧ Scalar.isLong n = true) ∧
      ∃ text cause, Backend.stopOf .classic o file (repeatedKey around key x) =
        .failure (.file (.malformed text file none none cause))) := by
  unfold repeatedKey
  cases hdisplay : x.display with
  | ok shown => exact .inl ⟨⟨_, rfl⟩, Scalar.not_isLong_of_display hdisplay, _, _, rfl⟩
  | error e =>
    obtain ⟨hlong, rfl⟩ := Scalar.display_error hdisplay
    exact .inr ⟨hlong, _, _, rfl⟩

/-- Among the documents that are accepted with repeated keys allowed, those with a repeated key are
refused, and the others are accepted with the same value.  The refusal is a complaint at a key that
repeats an earlier one of its mapping, unless that key is an integer too long to be shown: then it
is an error of a value, without a place. -/
theorem Graph.document_refused_iff {d : Document} (plain : g.OrdinaryKeys)
    (accepted : g.document (.classic terms .allowed) = .ok d) :
    ((∃ err, g.document (.classic terms .refused) = .error err) ↔
      ∃ i e, g.Reaches i ∧ g.Repeats terms i e) ∧
    (∀ err, g.document (.classic terms .refused) = .error err →
      ∃ i e x, g.Reaches i ∧ g.Repeats terms i e ∧ g.Denotes terms e.key x ∧ ∀ o file,
        ((∃ c, err = .complaint .constructing c) ∧
          (¬∃ n, x = .int n ∧ Scalar.isLong n = true) ∧ ∃ text cause,
            Backend.stopOf .classic o file err =
              .failure (.file (.malformed text file
                (some (Int.ofNat ((g.node e.key).mark.line + 1)))
                (some (Int.ofNat ((g.node e.key).mark.column + 1))) cause))) ∨
        ((∃ n, x = .int n ∧ Scalar.isLong n = true) ∧ ∃ text cause,
          Backend.stopOf .classic o file err =
            .failure (.file (.malformed text file none none cause)))) ∧
    ((¬∃ i e, g.Reaches i ∧ g.Repeats terms i e) →
      g.document (.classic terms .refused) = .ok d) := by
  have outcome := g.document_refused_or plain accepted
  refine ⟨⟨?_, ?_⟩, ?_, ?_⟩
  · rintro ⟨err, herr⟩
    rcases outcome with hok | ⟨err, -, i, e, x, hreaches, hrepeats, -, -⟩
    · rw [hok] at herr
      cases herr
    · exact ⟨i, e, hreaches, hrepeats⟩
  · rintro ⟨i, e, hreaches, hrepeats⟩
    rcases outcome with hok | ⟨err, herr, -⟩
    · exact (not_repeats_of_refused plain hok hreaches hrepeats).elim
    · exact ⟨err, herr⟩
  · intro err herr
    rcases outcome with hok | ⟨err', herr', i, e, x, hreaches, hrepeats, hx, hrefusal⟩
    · rw [hok] at herr
      cases herr
    · rw [herr'] at herr
      cases herr
      rw [hrefusal]
      exact ⟨i, e, x, hreaches, hrepeats, hx, fun o file => stopOf_repeatedKey o file _ _ x⟩
  · intro hnone
    rcases outcome with hok | ⟨err, -, i, e, x, hreaches, hrepeats, -, -⟩
    · exact hok
    · exact (hnone ⟨i, e, hreaches, hrepeats⟩).elim

/-- A mapping with the keys one, true and once more one, written in another base. -/
def Graph.oneTwice : Graph where
  root := 0
  nodes := #[
    ⟨Tag.map, .mapping [⟨1, 2⟩, ⟨3, 2⟩, ⟨4, 2⟩], ⟨0, 0, 0⟩, none⟩,
    ⟨Tag.int, .scalar "1", ⟨0, 0, 0⟩, none⟩,
    ⟨Tag.null, .scalar "", ⟨0, 2, 2⟩, none⟩,
    ⟨Tag.bool, .scalar "true", ⟨1, 0, 3⟩, none⟩,
    ⟨Tag.int, .scalar "0x1", ⟨2, 0, 9⟩, none⟩]

theorem Graph.oneTwice_refused :
    ∃ err, oneTwice.document (.classic .classic .refused) = .error err := by
  have hok : (oneTwice.document (.classic .classic .allowed)).isOk := by decide +kernel
  cases haccepted : oneTwice.document (.classic .classic .allowed) with
  | error e =>
    rw [haccepted] at hok
    cases hok
  | ok d =>
    have hrepeats : oneTwice.Repeats .classic 0 ⟨4, 2⟩ :=
      ⟨[⟨1, 2⟩, ⟨3, 2⟩], [], by decide +kernel, ⟨1, 2⟩, by decide, .int 1, .int 1,
        (by decide +kernel : Build.scalar (.classic .classic .allowed) oneTwice 1 = .ok (.int 1)),
        (by decide +kernel : Build.scalar (.classic .classic .allowed) oneTwice 4 = .ok (.int 1)),
        rfl, rfl⟩
    exact (Graph.document_refused_iff (by decide +kernel) haccepted).1.mpr
      ⟨0, ⟨4, 2⟩, .root, hrepeats⟩

/-- A mapping whose only key, given twice, is the greatest integer of so many hexadecimal digits and
one more. -/
def Graph.longTwice (n : Nat) : Graph where
  root := 0
  nodes :=
    let digits := ⟨.char '0' :: .char 'x' :: List.replicate (n + 1) (.char 'f')⟩
    #[⟨Tag.map, .mapping [⟨1, 2⟩, ⟨3, 4⟩], ⟨0, 0, 0⟩, none⟩,
      ⟨Tag.int, .scalar digits, ⟨2, 0, 2⟩, none⟩,
      ⟨Tag.int, .scalar "1", ⟨n + 8, 1, 2⟩, none⟩,
      ⟨Tag.int, .scalar digits, ⟨n + 12, 2, 2⟩, none⟩,
      ⟨Tag.int, .scalar "2", ⟨n + n + 18, 3, 2⟩, none⟩]

theorem Graph.longTwice_denotes {n : Nat} {i : NodeId} (key : i = 1 ∨ i = 3) :
    (longTwice n).Denotes .classic i
      (.int (Number.digitsValue 16 (List.replicate (n + 1) 'f'))) := by
  have hread := intOf_hexadecimal n
  rcases key with rfl | rfl
  · show (intOf .classic _ >>= fun k => pure (Scalar.int k)) = _
    rw [hread]
    rfl
  · show (intOf .classic _ >>= fun k => pure (Scalar.int k)) = _
    rw [hread]
    rfl

theorem Graph.longTwice_flat (n : Nat) : (longTwice n).Flat .classic where
  tag := rfl
  kind := rfl
  ordinary := by simp [longTwice, entries, node, isMerge, Tag.int, Tag.merge]
  settled := by simp [longTwice, entries, node, Tag.int, Tag.value]
  parts := by
    intro i hi
    have hmem : i ∈ [1, 2, 3, 4] := hi
    simp only [List.mem_cons, List.not_mem_nil, or_false] at hmem
    rcases hmem with rfl | rfl | rfl | rfl
    · exact ⟨rfl, _, longTwice_denotes (.inl rfl)⟩
    · exact ⟨rfl, .int 1, rfl⟩
    · exact ⟨rfl, _, longTwice_denotes (.inr rfl)⟩
    · exact ⟨rfl, .int 2, rfl⟩

theorem Graph.longTwice_key {n : Nat} {i : NodeId} {e : Entry}
    (mem : e ∈ (longTwice n).entries i) : i = 0 ∧ (e.key = 1 ∨ e.key = 3) := by
  have hsize : i < 5 := lt_size_of_kind (by rw [kind_of_mem_entries mem]; decide)
  match i with
  | 0 =>
    have hmem : e ∈ [(⟨1, 2⟩ : Entry), ⟨3, 4⟩] := mem
    simp only [List.mem_cons, List.not_mem_nil, or_false] at hmem
    rcases hmem with rfl | rfl
    · exact ⟨rfl, .inl rfl⟩
    · exact ⟨rfl, .inr rfl⟩
  | 1 | 2 | 3 | 4 => cases mem
  | i + 5 => exact (Nat.not_lt_of_le (Nat.le_add_left 5 i) hsize).elim

theorem Graph.longTwice_ordinaryKeys (n : Nat) : (longTwice n).OrdinaryKeys := by
  intro i _ e he
  have htag : ((longTwice n).node e.key).tag = Tag.int := by
    rcases (longTwice_key he).2 with hkey | hkey <;> rw [hkey] <;> rfl
  rw [htag]
  decide

theorem Graph.longTwice_repeats (n : Nat) : (longTwice n).Repeats .classic 0 ⟨3, 4⟩ :=
  ⟨[⟨1, 2⟩], [], rfl, ⟨1, 2⟩, by simp, _, _, longTwice_denotes (.inl rfl),
    longTwice_denotes (.inr rfl), rfl, by simp [Scalar.same]⟩

theorem isLong_digits {n : Nat} (long : 3572 ≤ n) :
    Scalar.isLong (Number.digitsValue 16 (List.replicate n 'f')) = true := by
  obtain ⟨k, hk, hlimit⟩ : ∃ k ≤ n, Number.tenTo Number.digitLimit < Nat.pow 16 k :=
    ⟨3572, long, by decide +kernel⟩
  have hpower : Number.tenTo Number.digitLimit < Nat.pow 16 n :=
    Nat.lt_of_lt_of_le hlimit (Nat.pow_le_pow_right (by decide) hk)
  rw [← digitsValue_replicate n] at hpower
  exact decide_eq_true (Nat.le_of_lt_succ hpower)

/-- The mapping repeats a key and is accepted where that is allowed, but there is no complaint about
the key where it is not. -/
theorem Graph.longTwice_not_complained :
    ¬∀ (g : Graph) (d : Document), g.OrdinaryKeys →
      g.document (.classic .classic .allowed) = .ok d →
      ((∃ c, g.document (.classic .classic .refused) = .error (.complaint .constructing c)) ↔
        ∃ i e, g.Reaches i ∧ g.Repeats .classic i e) := by
  intro h
  obtain ⟨d, haccepted⟩ := (longTwice_flat 3999).accepted
  have hplain := longTwice_ordinaryKeys 3999
  obtain ⟨c, hcomplaint⟩ := (h _ d hplain haccepted).mpr ⟨0, _, .root, longTwice_repeats 3999⟩
  rcases document_refused_or hplain haccepted with hok | ⟨e, he, i, entry, x, -, hrepeats, hx, rfl⟩
  · rw [hok] at hcomplaint
    cases hcomplaint
  · obtain ⟨before, after, hsplit, -⟩ := hrepeats
    have hkey := (longTwice_key (e := entry) (by rw [hsplit]; simp)).2
    have hdenotes := longTwice_denotes (n := 3999) hkey
    obtain rfl : Scalar.int _ = x := Except.ok.inj (hdenotes.symm.trans hx)
    have hlong := isLong_digits (n := 3999 + 1) (by decide)
    rw [he, repeatedKey_of_isLong hlong] at hcomplaint
    cases hcomplaint

end YamlCheck.Yaml
