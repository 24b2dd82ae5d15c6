import YamlCheck.Proofs.Yaml.Lockstep
import YamlCheck.Yaml.Load

/-!
# Wider limits

What is read within some limits is read alike within wider ones: the events are composed into the
same graph, and the graph is built into the same document.
-/

namespace YamlCheck.Yaml

/-- Limits within which no other limits lie. -/
def Limits.least : Limits where
  nesting := 2
  merging := 0
  plain := 0
  building := 0
  showing := 0
  nodes := 0
  room := Nat.le_refl 2

theorem Limits.least_within (limits : Limits) : Limits.least.Within limits where
  nesting := limits.room
  merging := Nat.zero_le _
  plain := Nat.zero_le _
  building := Nat.zero_le _

variable {limits limits' : Limits}

theorem Composition.step_within (within : limits.Within limits') {schema : Schema}
    {c c' : Composition} {e : Event} (h : c.step limits schema e = .ok c') :
    c.step limits' schema e = .ok c' := by
  have enters : ∀ p kind tag m, c.enter limits schema p kind tag m = .ok c' →
      c.enter limits' schema p kind tag m = .ok c' := by
    intro p kind tag m hc
    unfold enter at hc ⊢
    by_cases hfull : limits.nesting ≤ c.stack.length
    · rw [if_pos hfull] at hc
      cases hc
    · have hroom : ¬limits'.nesting ≤ c.stack.length := fun hfull' =>
        hfull (Nat.le_trans within.nesting hfull')
      rw [if_neg hfull] at hc
      rw [if_neg hroom]
      exact hc
  unfold step at h ⊢
  split at h
  case h_3 => exact enters _ _ _ _ h
  case h_4 => exact enters _ _ _ _ h
  all_goals exact h

namespace Parse

theorem compose_within (within : limits.Within limits') (fuel : Nat) (c : Composition)
    (p : Parser) :
    Follows Eq neverRefused (compose limits fuel c) (compose limits' fuel c) p p := by
  induction fuel generalizing c p with
  | zero => exact .throw _ _
  | succ fuel ih =>
      unfold compose
      refine .bind (fun _ _ h => .inl ⟨_, h, rfl⟩) fun e p₁ p₁' _ h₁ => ?_
      subst h₁
      refine .bind (fun _ _ h => .inl ⟨_, h, rfl⟩) fun schema p₂ p₂' _ h₂ => ?_
      subst h₂
      cases hstep : c.step limits schema e with
      | error err => exact .throw _ _
      | ok c' =>
          rw [Composition.step_within within hstep]
          dsimp only
          split
          · exact .pure _ rfl
          · exact ih c' p₂

theorem documentRest_within (within : limits.Within limits') (p : Parser) :
    Follows Eq neverRefused (documentRest limits) (documentRest limits') p p := by
  unfold documentRest
  refine .bind (fun _ _ h => .inl ⟨_, h, rfl⟩) fun fuel p₁ p₁' _ h₁ => ?_
  subst h₁
  refine .bind (compose_within within fuel {} p₁) fun g p₂ p₂' _ h₂ => ?_
  subst h₂
  exact .bind (fun _ _ h => .inl ⟨_, h, rfl⟩) fun _ p₃ p₃' _ h₃ => .pure _ h₃

theorem document?_within (within : limits.Within limits') (p : Parser) :
    Follows Eq neverRefused (document? limits) (document? limits') p p := by
  unfold document?
  refine .bind (fun _ _ h => .inl ⟨_, h, rfl⟩) fun start? p₁ p₁' _ h₁ => ?_
  subst h₁
  cases start? with
  | none => exact .pure _ rfl
  | some e => exact .bind (documentRest_within within p₁) fun g p₂ p₂' _ h₂ => .pure _ h₂

theorem single?_within (within : limits.Within limits') (p : Parser) :
    Follows Eq neverRefused (single? limits) (single? limits') p p := by
  unfold single?
  refine .bind (fun _ _ h => .inl ⟨_, h, rfl⟩) fun start? p₁ p₁' _ h₁ => ?_
  subst h₁
  cases start? with
  | none => exact .pure _ rfl
  | some e =>
      refine .bind (documentRest_within within p₁) fun g p₂ p₂' _ h₂ => ?_
      subst h₂
      refine .bind (fun _ _ h => .inl ⟨_, h, rfl⟩) fun other? p₃ p₃' _ h₃ => ?_
      subst h₃
      cases other? with
      | none => exact .pure _ rfl
      | some e' => exact .throw _ _

end Parse

theorem Graph.document_within (within : limits.Within limits') {g : Graph} {p : Parser}
    {dialect : Dialect} {duplicates : Duplicates} {d : Document}
    (accepted : g.document (p.rules limits dialect duplicates) = .ok d) :
    g.document (p.rules limits' dialect duplicates) = .ok d := by
  have admits : (p.rules limits dialect duplicates).Admits (p.rules limits' dialect duplicates) :=
    ⟨⟨within, rfl, rfl, .inr rfl⟩, fun _ => rfl⟩
  exact Graph.document_of_admits admits accepted

theorem loadFrom_within (within : limits.Within limits') {dialect : Dialect}
    {duplicates : Duplicates} {fuel : Nat} {p : Parser}
    (accepted : (loadFrom limits dialect duplicates fuel p).error = none) :
    loadFrom limits' dialect duplicates fuel p = loadFrom limits dialect duplicates fuel p := by
  induction fuel generalizing p with
  | zero => rfl
  | succ fuel ih =>
      unfold loadFrom at accepted ⊢
      cases hparse : (Parse.document? limits).run p with
      | error e => simp [hparse, Loaded.failed] at accepted
      | ok r =>
          obtain ⟨_, hparse', rfl⟩ := (Parse.document?_within within p).run_eq hparse
          rw [hparse] at accepted
          rw [hparse']
          obtain ⟨_ | g, p⟩ := r
          case none => rfl
          dsimp only at accepted ⊢
          cases hbuild : g.document (p.rules limits dialect duplicates) with
          | error e => simp [hbuild, Loaded.failed] at accepted
          | ok d =>
              rw [hbuild] at accepted
              rw [Graph.document_within within hbuild]
              exact congrArg (Loaded.cons d) (ih accepted)

/-- A stream that is read without an error within some limits is read alike within wider ones. -/
theorem load_within (within : limits.Within limits') {dialect : Dialect}
    {duplicates : Duplicates} {bytes : List UInt8}
    (accepted : (load limits dialect duplicates bytes).error = none) :
    load limits' dialect duplicates bytes = load limits dialect duplicates bytes := by
  unfold load at accepted ⊢
  exact loadFrom_within within accepted

/-- A single document that is read within some limits is read alike within wider ones. -/
theorem loadSingle_within (within : limits.Within limits') {s : Source} {d : Option Document}
    (accepted : loadSingle limits s = .ok d) : loadSingle limits' s = .ok d := by
  unfold loadSingle at accepted ⊢
  cases hparse : (Parse.single? limits).run (Parser.start .classic s) with
  | error e => simp [hparse, bind, Except.bind] at accepted
  | ok r =>
      obtain ⟨_, hparse', rfl⟩ := (Parse.single?_within within _).run_eq hparse
      rw [hparse] at accepted
      rw [hparse']
      simp only [bind, Except.bind] at accepted ⊢
      obtain ⟨_ | g, p⟩ := r
      case none => exact accepted
      dsimp only at accepted ⊢
      cases hbuild : g.document (p.rules limits .classic .allowed) with
      | error e => simp [hbuild] at accepted
      | ok d' =>
          rw [hbuild] at accepted
          rw [Graph.document_within within hbuild]
          exact accepted

end YamlCheck.Yaml
