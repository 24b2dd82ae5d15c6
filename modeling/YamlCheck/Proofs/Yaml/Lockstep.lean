import YamlCheck.Proofs.Yaml.Simulation

/-!
# Rules that permit more

Limits are only asked for where they are reached, and in the modern dialect the policy for repeated
keys is only asked for where it refuses one.  Up to there the runs under two sets of rules take the
same steps through the same states.  So a document that is accepted within some limits is the same
one within wider ones, and in the modern dialect one that is accepted with repeated keys refused is
the same one with repeated keys allowed.
-/

namespace YamlCheck.Yaml

def Rules.allowing (r : Rules) : Rules := { r with duplicates := .allowed }

/-- Limits that let the same recursions go on, or further. -/
structure Limits.Within (l l' : Limits) : Prop where
  nesting : l.nesting ≤ l'.nesting
  merging : l.merging ≤ l'.merging
  plain : l.plain ≤ l'.plain
  building : l.building ≤ l'.building

theorem Limits.Within.refl (l : Limits) : l.Within l :=
  ⟨Nat.le_refl _, Nat.le_refl _, Nat.le_refl _, Nat.le_refl _⟩

/-- Rules under which merge keys are replaced as they are under others. -/
structure Rules.Permits (r r' : Rules) : Prop where
  limits : r.limits.Within r'.limits
  schema : r'.schema = r.schema
  dialect : r'.dialect = r.dialect
  duplicates : r'.duplicates = .allowed ∨ r'.duplicates = r.duplicates

theorem Rules.permits_allowing (r : Rules) : r.Permits r.allowing :=
  ⟨.refl r.limits, rfl, rfl, .inl rfl⟩

def neverRefused : LoadError → Prop := fun _ => False

theorem Follows.run_eq {σ α : Type} {R : σ → σ → Prop} {m m' : StateT σ (Except LoadError) α}
    {s l s' : σ} {v : α} (h : Follows R neverRefused m m' s l) (hs : m.run s = .ok (v, s')) :
    ∃ l', m'.run l = .ok (v, l') ∧ R s' l' := by
  rcases h v s' hs with hl | ⟨e, -, hfalse⟩
  · exact hl
  · exact hfalse.elim

/-! ## Merge keys -/

namespace Merging

/-- One replacer does what another one does wherever that one ends well. -/
def Extends (again again' : Replacer) : Prop :=
  ∀ i n es g, Follows Eq neverRefused (again i n es) (again' i n es) g g

variable {inner inner' again again' : Replacer}

theorem follows_wholeWith (h : Extends inner inner') (i : NodeId) (g : Graph) :
    Follows Eq neverRefused (wholeWith inner i) (wholeWith inner' i) g g := by
  unfold wholeWith
  refine .bind (h i 0 [] g) fun merged g₁ g₁' _ hg₁ => ?_
  subst hg₁
  refine .bind (.modify rfl) fun _ g₂ g₂' _ hg₂ => ?_
  subst hg₂
  exact .get (.pure _ rfl)

theorem follows_broughtIn (h : Extends inner inner') (mark : Mark) (i : NodeId) (source : Node)
    (g : Graph) :
    Follows Eq neverRefused (broughtIn inner mark i source) (broughtIn inner' mark i source)
      g g := by
  unfold broughtIn
  split
  · exact follows_wholeWith h i g
  · rename_i items _
    refine .bind (.mapM (fun j _ g₁ g₁' hg₁ => ?_) rfl) fun parts g₂ g₂' _ hg₂ => ?_
    · subst hg₁
      refine .get ?_
      by_cases hkind : (g₁.node j).content.kind != .mapping
      · simp only [hkind, if_true]
        exact .throw_bind _ _ _
      · simp only [hkind]
        exact follows_wholeWith h j g₁
    · subst hg₂
      exact .pure _ rfl
  · exact .throw _ _

theorem follows_replaceNext (below : Extends inner inner') (h : Extends again again')
    {r r' : Rules} (permits : r.Permits r') (i : NodeId) (n : Nat) (merged : List Entry)
    (g : Graph) :
    Follows Eq neverRefused (replaceNext r inner again i n merged)
      (replaceNext r' inner' again' i n merged) g g := by
  unfold replaceNext
  rw [permits.dialect]
  refine .get (.bind (.set rfl) fun _ g₁ g₁' _ hg₁ => ?_)
  subst hg₁
  split
  · exact .pure _ rfl
  by_cases hsecond : r.dialect == .modern && !merged.isEmpty
  · simp only [hsecond, if_true]
    by_cases hrefused : r.duplicates == .refused
    · simp only [hrefused, if_true]
      exact .throw_bind _ _ _
    · have hallowed : (r'.duplicates == .refused) = false := by
        rcases permits.duplicates with h | h <;> simp_all
      simp only [hrefused, hallowed]
      refine .bind (.set rfl) fun _ g₂ g₂' _ hg₂ => ?_
      subst hg₂
      exact .pure _ rfl
  · simp only [hsecond]
    refine .bind (.set rfl) fun _ g₂ g₂' _ hg₂ => ?_
    subst hg₂
    refine .bind (follows_broughtIn below _ _ _ g₂) fun more g₃ g₃' _ hg₃ => ?_
    subst hg₃
    exact h i _ _ g₃

variable {r r' : Rules}

theorem rounds_extends (below : Extends inner inner') (permits : r.Permits r') (fuel : Nat) :
    Extends (rounds r inner fuel) (rounds r' inner' fuel) := by
  induction fuel with
  | zero => exact fun _ _ _ _ => .throw _ _
  | succ fuel ih => exact fun i n merged g => follows_replaceNext below ih permits i n merged g

theorem replaceFrom_extends (permits : r.Permits r') {depth depth' : Nat} (h : depth ≤ depth') :
    Extends (replaceFrom r depth) (replaceFrom r' depth') := by
  induction depth generalizing depth' with
  | zero => exact fun _ _ _ _ => .throw _ _
  | succ depth ih =>
      cases depth' with
      | zero => exact absurd h (Nat.not_succ_le_zero depth)
      | succ depth' =>
          have below := ih (Nat.le_of_succ_le_succ h)
          exact fun i n merged g => .get (rounds_extends below permits _ i n merged g)

/-- Merge keys that are replaced are replaced in the same way under rules that permit more. -/
theorem replace_permits (permits : r.Permits r') {i : NodeId} {g g' : Graph}
    (h : (replace r i).run g = .ok ((), g')) : (replace r' i).run g = .ok ((), g') := by
  have follows : Follows Eq neverRefused (replace r i) (replace r' i) g g := by
    unfold replace
    have deeper := Nat.succ_le_succ permits.limits.merging
    refine .bind (replaceFrom_extends permits deeper i 0 [] g) fun merged g₁ g₁' _ hg₁ => ?_
    subst hg₁
    exact .modify rfl
  obtain ⟨g'', hrun, rfl⟩ := follows.run_eq h
  exact hrun

theorem replace_allowing {i : NodeId} {g g' : Graph} (h : (replace r i).run g = .ok ((), g')) :
    (replace r.allowing i).run g = .ok ((), g') :=
  replace_permits r.permits_allowing h

end Merging

/-! ## Scalars -/

/-- What one reading comes to another one comes to as well. -/
def Reads {α : Type} (m m' : Except LoadError α) : Prop := ∀ v, m = .ok v → m' = .ok v

namespace Reads

variable {α β : Type} {m m' : Except LoadError α}

protected theorem refl (m : Except LoadError α) : Reads m m := fun _ h => h

protected theorem throw (e : LoadError) : Reads (throw e) m' := fun _ h => nomatch h

protected theorem bind {f f' : α → Except LoadError β} (first : Reads m m')
    (next : ∀ v, Reads (f v) (f' v)) : Reads (m >>= f) (m' >>= f') := by
  intro w h
  cases hm : m with
  | error e => simp [hm, bind, Except.bind] at h
  | ok v =>
      rw [hm] at h
      rw [first v hm]
      exact next v w h

/-- What only a complaint asks for does not matter. -/
theorem complaint (m : Except LoadError α) (e : α → LoadError) (m' : Except LoadError β) :
    Reads (m >>= fun v => throw (e v)) m' := by
  intro w h
  cases m <;> cases h

protected theorem ite {c : Prop} [Decidable c] {n n' : Except LoadError α}
    (yes : Reads m m') (no : Reads n n') : Reads (if c then m else n) (if c then m' else n') := by
  by_cases hc : c
  · simpa only [hc, if_true] using yes
  · simpa only [hc, if_false] using no

end Reads

namespace Build

variable {g : Graph} {i : NodeId} {r r' : Rules}

theorem textOf_mono {depth depth' : Nat} (h : depth ≤ depth') :
    Reads (textOf g depth i) (textOf g depth' i) := by
  intro t found
  induction depth generalizing depth' i with
  | zero => cases found
  | succ depth ih =>
      cases depth' with
      | zero => exact absurd h (Nat.not_succ_le_zero depth)
      | succ depth' =>
          unfold textOf at found ⊢
          dsimp only at found ⊢
          split at found
          · exact found
          · cases found
          · split at found
            · exact ih (Nat.le_of_succ_le_succ h) found
            · cases found

theorem text_permits (permits : r.Permits r') : Reads (text r.limits g i) (text r'.limits g i) :=
  textOf_mono (Nat.succ_le_succ permits.limits.plain)

theorem timestamp_permits (permits : r.Permits r') :
    Reads (timestamp r g i) (timestamp r' g i) := by
  unfold timestamp
  rw [permits.dialect]
  dsimp only
  cases r.dialect with
  | classic =>
      refine .ite (.bind (text_permits permits) fun _ => .ite (.bind (.refl _) fun _ => ?_) ?_) ?_
      all_goals
        split
        · exact .refl _
        · exact .refl _
        · exact .complaint _ _ _
  | modern =>
      rw [if_neg (by decide), if_neg (by decide)]
      split
      · exact .refl _
      · exact .refl _
      · exact .complaint _ _ _

theorem scalar_permits (permits : r.Permits r') : Reads (scalar r g i) (scalar r' g i) := by
  have htext : Reads (text r.limits g i) (text r'.limits g i) := text_permits permits
  unfold scalar
  rw [permits.dialect, permits.schema]
  refine .ite (.bind htext fun _ => .refl _) ?_
  refine .ite (.bind htext fun _ => .refl _) ?_
  refine .ite (.bind htext fun _ => .refl _) ?_
  refine .ite (.bind htext fun _ => .refl _) ?_
  refine .ite (.bind htext fun _ => .refl _) ?_
  refine .ite (.bind htext fun _ => .refl _) ?_
  exact .ite (timestamp_permits permits) (.throw _)

end Build

/-! ## Construction -/

/-- Rules under which documents are built as they are under others: in the classic dialect the
policy is asked for before a key repeats. -/
structure Rules.Admits (r r' : Rules) : Prop extends r.Permits r' where
  classic : r.dialect = .classic → r'.duplicates = r.duplicates

/-- Two constructions that only differ in their rules. -/
structure Lockstep (r' : Rules) (s l : Construction) : Prop where
  admits : s.rules.Admits r'
  eq : l = { s with rules := r' }

variable {r' : Rules}

theorem Lockstep.change {s l : Construction} (h : Lockstep r' s l)
    (f : Construction → Construction) (keeps : ∀ c, (f c).rules = c.rules)
    (blind : f { s with rules := r' } = { f s with rules := r' }) :
    Lockstep r' (f s) (f l) where
  admits := by rw [keeps]; exact h.admits
  eq := by rw [h.eq, blind]

theorem Lockstep.tracks : Build.Tracks (Lockstep r') fun _ => True where
  graph := by rintro s l ⟨-, rfl⟩; rfl
  dialect := by rintro s l ⟨admits, rfl⟩; exact admits.dialect.symm
  cells := by rintro s l ⟨-, rfl⟩; rfl
  queue := by rintro s l ⟨-, rfl⟩; rfl
  withCell i cell h := h.change (·.withCell i cell) (fun _ => rfl) rfl
  emptied h := h.change (fun c => { c with queue := [] }) (fun _ => rfl) rfl
  waiting := fun _ _ _ => trivial
  below := fun _ _ _ => trivial

namespace Build

def StaysInStep (r' : Rules) (make make' : Builder) : Prop :=
  ∀ i whole s l, Lockstep r' s l →
    Follows (Lockstep r') neverRefused (make i whole) (make' i whole) s l

section Steps

variable {make make' : Builder} {s l : Construction}

theorem complainRepeated_ne_ok {around key : Mark} {k v old : Value} {u : Unit}
    {s' : Construction} (h : (complainRepeated around key k v old).run s = .ok (u, s')) :
    False := by
  unfold complainRepeated at h
  obtain ⟨_, _, -, h⟩ := run_bind_ok h
  obtain ⟨_, _, -, h⟩ := run_bind_ok h
  obtain ⟨_, _, -, h⟩ := run_bind_ok h
  obtain ⟨_, _, -, h⟩ := run_bind_ok h
  cases h

theorem complainOf_ne_ok {around m : Mark} {x : Scalar} {u : Unit} {s' : Construction}
    (h : (complainOf around x m).run s = .ok (u, s')) : False := by
  unfold complainOf at h
  obtain ⟨_, _, -, h⟩ := run_bind_ok h
  cases h

theorem lockstep_modernEntries (makes : StaysInStep r' make make') {around : Mark}
    {checked : Bool} {es : List Entry} (acc : List (Value × Value)) (h : Lockstep r' s l) :
    Follows (Lockstep r') neverRefused (modernEntries make around checked acc es)
      (modernEntries make' around checked acc es) s l := by
  induction es generalizing acc s l with
  | nil => exact .pure _ h
  | cons e rest ih =>
    unfold modernEntries
    refine .bind (makes e.key true s l h) fun made s₁ l₁ _ h₁ => .get ?_
    rw [← Lockstep.tracks.cells h₁]
    refine follows_node Lockstep.tracks h₁ ?_
    refine .check (fun _ _ => refuseReference_ok) fun _ => ?_
    refine .bind (makes e.value false s₁ l₁ h₁) fun v s₂ l₂ _ h₂ => ?_
    refine .check (fun _ _ => refuseUnhashable_ok) fun _ => ?_
    split
    · obtain ⟨admits, rfl⟩ := id h₂
      refine .get ?_
      by_cases hrefused : s₂.rules.duplicates == .refused
      · simp only [hrefused, if_true]
        intro w s' hrun
        obtain ⟨_, _, hcomplain, -⟩ := run_bind_ok hrun
        exact (complainRepeated_ne_ok hcomplain).elim
      · have hallowed : (r'.duplicates == .refused) = false := by
          rcases admits.duplicates with hsame | hsame <;> simp_all
        simp only [hrefused, hallowed]
        exact ih acc h₂
    · exact ih _ h₂

theorem lockstep_refuseRepeatedKeys (makes : StaysInStep r' make make') (i : NodeId)
    (h : Lockstep r' s l) :
    Follows (Lockstep r') neverRefused (refuseRepeatedKeys make i) (refuseRepeatedKeys make' i)
      s l := by
  unfold refuseRepeatedKeys
  refine follows_node Lockstep.tracks h (.get ?_)
  rw [← Lockstep.tracks.graph h]
  generalize s.graph.entries i = es
  generalize (s.graph.node i).mark = around
  generalize ([] : List Scalar) = seen
  induction es generalizing seen s l with
  | nil => exact .pure _ h
  | cons e rest ih =>
    unfold refuseRepeatedKeys.loop
    refine follows_node Lockstep.tracks h ?_
    split
    · exact ih h seen
    · refine .bind (makes e.key false s l h) fun v s₁ l₁ _ h₁ => ?_
      split
      · split
        · intro w s' hrun
          obtain ⟨_, _, hcomplain, -⟩ := run_bind_ok hrun
          exact (complainOf_ne_ok hcomplain).elim
        · exact ih h₁ _
      · exact ih h₁ seen

theorem lockstep_replaceMerges (i : NodeId) (h : Lockstep r' s l) :
    Follows (Lockstep r') neverRefused (replaceMerges i) (replaceMerges i) s l := by
  obtain ⟨admits, rfl⟩ := h
  intro v s' hrun
  obtain ⟨g, hreplace, rfl⟩ := run_replaceMerges_ok hrun
  have hpermitted : (Merging.replace r' i).run s.graph = .ok ((), g) :=
    Merging.replace_permits admits.toPermits hreplace
  exact .inl ⟨_, run_replaceMerges hpermitted, admits, rfl⟩

theorem lockstep_mapping (makes : StaysInStep r' make make') (i : NodeId)
    (h : Lockstep r' s l) :
    Follows (Lockstep r') neverRefused (mapping make i) (mapping make' i) s l := by
  have entries (i : NodeId) : ∀ s l, True → Lockstep r' s l →
      Follows (Lockstep r') neverRefused (make i false) (make' i false) s l :=
    fun s l _ h => makes i false s l h
  obtain ⟨admits, rfl⟩ := id h
  unfold mapping
  refine .get (follows_node Lockstep.tracks h ?_)
  simp only [admits.dialect]
  by_cases hkind : (s.graph.node i).content.kind != .mapping
  · simp only [hkind, if_true]
    exact .throw_bind _ _ _
  simp only [hkind]
  cases hd : s.rules.dialect with
  | classic =>
    have classicMapping_follows : ∀ s l, Lockstep r' s l →
        Follows (Lockstep r') neverRefused (classicMapping make i) (classicMapping make' i)
          s l := by
      intro s l h
      unfold classicMapping
      refine .bind (lockstep_replaceMerges i h) fun _ s₁ l₁ _ h₁ => ?_
      refine follows_node Lockstep.tracks h₁ (.get ?_)
      rw [← Lockstep.tracks.graph h₁]
      exact follows_classicEntries Lockstep.tracks entries (fun _ _ => ⟨trivial, trivial⟩) [] h₁
    dsimp only
    rw [admits.classic hd]
    by_cases hrefused : s.rules.duplicates == .refused
    · simp only [hrefused, if_true]
      exact .bind (lockstep_refuseRepeatedKeys makes i h) fun _ s₁ l₁ _ h₁ =>
        classicMapping_follows s₁ l₁ h₁
    · simp only [hrefused]
      exact classicMapping_follows s _ h
  | modern =>
    dsimp only
    unfold modernMapping
    refine .bind (lockstep_replaceMerges i h) fun _ s₁ l₁ _ h₁ => ?_
    refine follows_node Lockstep.tracks h₁ (.get ?_)
    rw [← Lockstep.tracks.graph h₁]
    exact lockstep_modernEntries makes [] h₁

theorem lockstep_setProgress (i : NodeId) (p : Progress) (h : Lockstep r' s l) :
    Follows (Lockstep r') neverRefused (setProgress i p) (setProgress i p) s l :=
  .modify (h.change (·.withProgress i p) (fun _ => rfl) rfl)

theorem lockstep_setAtOnce (b : Bool) (h : Lockstep r' s l) :
    Follows (Lockstep r') neverRefused (setAtOnce b) (setAtOnce b) s l :=
  .modify (h.change (fun c => { c with atOnce := b }) (fun _ => rfl) rfl)

section Fresh

variable {i : NodeId} (fills : ∀ s l, Lockstep r' s l →
  Follows (Lockstep r') neverRefused (fill make i) (fill make' i) s l)

include fills

theorem lockstep_start {empty : Cell} (h : Lockstep r' s l) :
    Follows (Lockstep r') neverRefused (start make i empty) (start make' i empty) s l := by
  unfold start
  refine .bind (follows_setCell Lockstep.tracks h empty) fun _ s₁ l₁ _ h₁ => .get ?_
  have hdialect : l₁.rules.dialect = s₁.rules.dialect := (Lockstep.tracks.dialect h₁).symm
  have hatOnce : l₁.atOnce = s₁.atOnce := by rw [h₁.eq]
  have hqueue : Lockstep r' { s₁ with queue := s₁.queue ++ [i] }
      { l₁ with queue := l₁.queue ++ [i] } :=
    h₁.change (fun c => { c with queue := c.queue ++ [i] }) (fun _ => rfl) rfl
  have filled : ∀ s l, Lockstep r' s l → Follows (Lockstep r') neverRefused
      (fill make i >>= fun _ => pure (Value.ref i)) (fill make' i >>= fun _ => pure (.ref i))
        s l := fun s l h => .bind (fills s l h) fun _ s₃ l₃ _ h₃ => .pure _ h₃
  by_cases hnow : s₁.atOnce
  · rw [if_pos hnow, if_pos (hatOnce.trans hnow), hdialect]
    by_cases hmodern : s₁.rules.dialect == .modern
    · rw [if_pos hmodern, if_pos hmodern]
      exact .bind (lockstep_setProgress i _ h₁) fun _ s₂ l₂ _ h₂ => filled s₂ l₂ h₂
    · rw [if_neg hmodern, if_neg hmodern]
      exact filled s₁ l₁ h₁
  · rw [if_neg hnow, if_neg (by rwa [hatOnce])]
    exact .bind (.set hqueue) fun _ s₂ l₂ _ h₂ => .pure _ h₂

theorem lockstep_fresh (h : Lockstep r' s l) :
    Follows (Lockstep r') neverRefused (fresh make i) (fresh make' i) s l := by
  obtain ⟨admits, rfl⟩ := id h
  unfold fresh
  refine .get ?_
  have hcell : emptyCell? r'.dialect (s.graph.node i).tag =
      emptyCell? s.rules.dialect (s.graph.node i).tag := by rw [admits.dialect]
  dsimp only
  rw [hcell]
  cases emptyCell? s.rules.dialect (s.graph.node i).tag with
  | some cell => exact lockstep_start fills h
  | none =>
    refine .bind ?_ fun x s₁ l₁ _ h₁ => .pure _ h₁
    intro x s' hrun
    obtain ⟨hscalar, rfl⟩ := run_lift_ok hrun
    rw [run_lift, scalar_permits admits.toPermits x hscalar]
    exact .inl ⟨_, rfl, h⟩

end Fresh

theorem lockstep_makeWith (inner : StaysInStep r' make make') :
    StaysInStep r' (makeWith make) (makeWith make') := by
  intro i whole s l h
  have makes : ∀ i s l, True → Lockstep r' s l →
      Follows (Lockstep r') neverRefused (make i false) (make' i false) s l :=
    fun i s l _ h => inner i false s l h
  have fills : ∀ s l, Lockstep r' s l →
      Follows (Lockstep r') neverRefused (fill make i) (fill make' i) s l :=
    fun s l h => follows_fill Lockstep.tracks makes h trivial (lockstep_mapping inner i h)
  obtain ⟨admits, rfl⟩ := id h
  unfold makeWith
  refine .get ?_
  dsimp only
  rw [admits.dialect]
  cases s.progress.getD i .untouched with
  | finished v => exact .pure v h
  | started known =>
    cases s.rules.dialect with
    | classic => exact .throw _ _
    | modern =>
      cases whole with
      | false => exact .pure _ h
      | true => exact .bind (lockstep_setAtOnce true h) fun _ s₁ l₁ _ h₁ => .pure _ h₁
  | untouched =>
    cases whole with
    | false =>
      refine .bind (lockstep_setProgress i _ h) fun _ s₁ l₁ _ h₁ => ?_
      refine .bind (lockstep_fresh fills h₁) fun v s₂ l₂ _ h₂ => ?_
      exact .bind (lockstep_setProgress i _ h₂) fun _ s₃ l₃ _ h₃ => .pure v h₃
    | true =>
      refine .bind (lockstep_setAtOnce true h) fun _ s₁ l₁ _ h₁ => ?_
      refine .bind (lockstep_setProgress i _ h₁) fun _ s₂ l₂ _ h₂ => ?_
      refine .bind (lockstep_fresh fills h₂) fun v s₃ l₃ _ h₃ => ?_
      refine .bind (lockstep_setProgress i _ h₃) fun _ s₄ l₄ _ h₄ => ?_
      exact .bind (lockstep_setAtOnce _ h₄) fun _ s₅ l₅ _ h₅ => .pure v h₅

/-- A node is built in the same way whether it is reached by itself or filled on the spot, and
however much further others may lie in it. -/
theorem lockstep_make {depth depth' : Nat} (h : depth ≤ depth') :
    StaysInStep r' (Build.make depth) (Build.make depth') := by
  induction depth generalizing depth' with
  | zero => exact fun _ _ _ _ _ => .throw _ _
  | succ depth ih =>
    cases depth' with
    | zero => exact absurd h (Nat.not_succ_le_zero depth)
    | succ depth' =>
      have inner := ih (Nat.le_of_succ_le_succ h)
      exact lockstep_makeWith inner

end Steps

end Build

/-- A document that is accepted is accepted under rules that admit more, with the same value. -/
theorem Graph.document_of_admits {g : Graph} {r r' : Rules} {d : Document}
    (admits : r.Admits r') (accepted : g.document r = .ok d) : g.document r' = .ok d := by
  have h : Lockstep r' (Construction.start r g) (Construction.start r' g) := ⟨admits, rfl⟩
  have deeper : r.limits.building + 1 ≤ r'.limits.building + 1 :=
    Nat.succ_le_succ admits.limits.building
  have follows : Follows (Lockstep r') neverRefused Build.document Build.document _ _ :=
    Build.follows_document Lockstep.tracks h trivial
      (fun i s l _ h => Build.lockstep_make deeper i false s l h)
      (fun i s l _ h => Build.lockstep_mapping (Build.lockstep_make deeper) i h)
  obtain ⟨s', hrun⟩ := Graph.document_eq_ok.mp accepted
  obtain ⟨l', hl, -⟩ := follows.run_eq hrun
  exact Graph.document_eq_ok.mpr ⟨l', hl⟩

/-- What the modern dialect accepts with repeated keys refused it accepts with repeated keys
allowed, with the same value. -/
theorem Graph.document_allowing_of_modern {g : Graph} {r : Rules} {d : Document}
    (modern : r.dialect = .modern) (accepted : g.document r = .ok d) :
    g.document r.allowing = .ok d := by
  have unclassic : r.dialect = .classic → r.allowing.duplicates = r.duplicates := by simp [modern]
  exact Graph.document_of_admits ⟨r.permits_allowing, unclassic⟩ accepted

end YamlCheck.Yaml
