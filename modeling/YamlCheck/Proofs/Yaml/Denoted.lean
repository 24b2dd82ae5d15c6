import Mathlib.Algebra.Group.Nat.Defs
import YamlCheck.Proofs.Yaml.Scanned
import YamlCheck.Yaml.Scalar

/-!
# Texts that denote no value and break the reader down

A text of the wrong form for its type is a bad value, and a complaint.  For a few texts the readers
of values have no answer at all: a word that is no truth value, a numeral without a digit, too many
groups to the base of sixty, and the last second of the calendar if it is rounded up.
-/

namespace YamlCheck.Text

theorem lowercaseChar_ne_nil (c : Char) : lowercaseChar c ≠ [] := by
  unfold lowercaseChar
  dsimp only
  split
  · simp
  split
  · simp
  split <;> simp

theorem lowercaseAfter_eq_nil_iff {before s : List Char} :
    lowercaseAfter before s = [] ↔ s = [] := by
  cases s with
  | nil => simp [lowercaseAfter]
  | cons c rest =>
    unfold lowercaseAfter
    dsimp only
    split <;> simp [lowercaseChar_ne_nil]

/-- A text in lower case is empty only if it was empty before. -/
theorem lowercase_eq_nil_iff {s : String} : (lowercase s).toList = [] ↔ s.toList = [] := by
  unfold lowercase
  split
  · show (s.map Char.toLower).toList = [] ↔ s.toList = []
    rw [String.toList_map, List.map_eq_nil_iff]
  · simp [lowercaseAfter_eq_nil_iff]

theorem Letters.lowercaseFrom_eq_nil_iff {run : List Char} {ls : List Letter} :
    (lowercaseFrom run ls).list = [] ↔ run = [] ∧ ls = [] := by
  induction ls generalizing run with
  | nil =>
    show (Text.lowercase (String.ofList run.reverse)).toList.map Letter.char = [] ↔ _
    rw [List.map_eq_nil_iff, lowercase_eq_nil_iff]
    simp
  | cons l rest ih =>
    cases l with
    | char c => simp [lowercaseFrom, ih]
    | half index =>
      refine iff_of_false (fun h => ?_) (by simp)
      have hhalf := (List.append_eq_nil_iff.mp (List.append_eq_nil_iff.mp h).1).2
      cases hhalf

theorem Letters.lowercase_eq_nil_iff {s : Letters} : s.lowercase.list = [] ↔ s.list = [] := by
  simp [Letters.lowercase, lowercaseFrom_eq_nil_iff]

end YamlCheck.Text

namespace YamlCheck

open YamlCheck.Text YamlCheck.Number

namespace Yaml

/-! ## Words and integers -/

/-- The words for the truth values, in lower case. -/
def truthWords (d : Dialect) : List String :=
  ["yes", "true", "on", "no", "false", "off"] ++ (if d = .modern then ["y", "n"] else [])

/-- Whether a text is none of the words for the truth values. -/
def NoTruthWord (d : Dialect) (text : Letters) : Prop :=
  ∀ word ∈ truthWords d, (word : Letters) ≠ text.lowercase

theorem raises_boolOf (d : Dialect) (text : Letters) :
    Raises (LoadError.Within fun b => b = .unknownWord text.lowercase ∧ NoTruthWord d text)
      (boolOf d text) := by
  unfold boolOf
  refine .ite (fun _ => .ok true) fun hyes => .ite (fun _ => .ok false) fun hno => .error ⟨rfl, ?_⟩
  unfold NoTruthWord truthWords
  cases d with
  | classic => simp_all
  | modern => simp_all

theorem raises_splitSign (s : List Letter) :
    Raises (LoadError.Within fun b => b = .emptyNumeral ∧ s = []) (splitSign s) := by
  unfold splitSign
  split
  · exact .error ⟨rfl, rfl⟩
  all_goals exact .ok _

theorem raises_readInt (known : Breakdown → Prop) (base : Nat) (s : List Letter) :
    Raises (LoadError.Within known) (readInt base s) := by
  unfold readInt
  split
  · exact .ok _
  · exact .error trivial

theorem raises_readNumber (known : Breakdown → Prop) (s : List Letter) :
    Raises (LoadError.Within known) (readNumber s) := by
  unfold readNumber
  split
  · exact .ok _
  · exact .error trivial

/-- Whether the numeral of an integer has no digit: nothing is left of it but bars, or outside the
patterns of version 1.2 a sign. -/
def Digitless (k : Schema) (text : Letters) : Prop :=
  dropBars text = [] ∨ (k ≠ .modern12 ∧ dropBars text ∈ [[.char '-'], [.char '+']])

theorem eq_sign_of_splitSign {ls : List Letter} {negative : Bool}
    (h : splitSign ls = .ok (negative, [])) : ls ∈ [[.char '-'], [.char '+']] := by
  unfold splitSign at h
  split at h
  · cases h
  · cases h
    simp
  · cases h
    simp
  · rename_i hnil _ _
    cases h
    exact (hnil rfl).elim

theorem raises_intOf (k : Schema) (text : Letters) :
    Raises (LoadError.Within fun b => b = .emptyNumeral ∧ Digitless k text) (intOf k text) := by
  unfold intOf
  refine Raises.bind ?_ fun signed hsign => ?_
  · refine (raises_splitSign _).mono fun e he => he.mono fun b hb => ?_
    exact ⟨hb.1, .inl hb.2⟩
  obtain ⟨negative, s⟩ := signed
  dsimp -zeta only
  extract_lets finish
  have hfinish : ∀ i, Raises (LoadError.Within fun b => b = .emptyNumeral ∧ Digitless k text)
      (finish i) := fun i => .ok _
  have hread : ∀ base ds, Raises
      (LoadError.Within fun b => b = .emptyNumeral ∧ Digitless k text)
      (readInt base ds >>= finish) :=
    fun base ds => (raises_readInt _ base ds).bind fun i _ => hfinish i
  split
  · exact hfinish 0
  · exact hread 2 _
  · exact hread 16 _
  · exact hread 8 _
  · refine .ite (fun _ => hread 10 _) fun hold => ?_
    split
    · refine .error ⟨rfl, .inr ⟨by simpa using hold, ?_⟩⟩
      exact eq_sign_of_splitSign hsign
    · exact hread 8 _
    · refine .ite (fun _ => ?_) fun _ => hread 10 _
      refine (Raises.mapM (raises_readInt _ 10) _).bind fun ds _ => ?_
      exact hfinish _

/-! ## Numbers -/

/-- The numeral of a number, as it is read: in lower case and without bars. -/
def numeralOf (text : Letters) : List Letter := (Letters.lowercase ⟨dropBars text⟩).list

theorem ofNat?_sixty_pow : ∀ n < 174, (Binary64.ofNat? (60 ^ n)).isSome = true := by
  decide +kernel

/-- A group is out of bounds only from the 175th place to the base of sixty on. -/
theorem raises_addSixties (xs : List Binary64) (n : Nat) (sum : Binary64) :
    Raises (LoadError.Within fun b => b = .hugeInteger ∧ 174 < n + xs.length)
      (addSixties xs (60 ^ n) sum) := by
  induction xs generalizing n sum with
  | nil => exact .ok sum
  | cons x rest ih =>
    unfold addSixties
    cases hbase : Binary64.ofNat? (60 ^ n) with
    | none =>
      refine .error ⟨rfl, ?_⟩
      have hlarge : ¬n < 174 := by
        intro hn
        have hsome := ofNat?_sixty_pow n hn
        rw [hbase] at hsome
        cases hsome
      rw [List.length_cons]
      omega
    | some base =>
      have hnext := ih (n + 1) (sum.add (x.mul base))
      have hlength : n + 1 + rest.length = n + (x :: rest).length := by
        rw [List.length_cons]
        omega
      rw [hlength, Nat.pow_succ] at hnext
      exact hnext

theorem length_groups (s : List Letter) : (groups s).length = s.count (.char ':') + 1 := by
  unfold groups List.splitOn
  induction s with
  | nil => simp
  | cons c s ih =>
    rw [List.splitOnP_cons_eq_if_modifyHead, List.count_cons]
    split
    · rw [List.length_cons, ih]
    · rw [List.length_modifyHead, ih]

theorem count_of_splitSign {ls s : List Letter} {negative : Bool}
    (h : splitSign ls = .ok (negative, s)) : s.count (.char ':') = ls.count (.char ':') := by
  unfold splitSign at h
  split at h
  · cases h
  all_goals
    cases h
    simp

theorem length_of_mapM {α β : Type} {f : α → Except LoadError β} {xs : List α} {ys : List β}
    (h : xs.mapM f = .ok ys) : ys.length = xs.length := by
  induction xs generalizing ys with
  | nil =>
    rw [List.mapM_nil] at h
    cases h
    rfl
  | cons x xs ih =>
    rw [List.mapM_cons] at h
    cases hx : f x with
    | error e =>
      rw [hx] at h
      cases h
    | ok y =>
      cases hxs : xs.mapM f with
      | error e =>
        rw [hx, hxs] at h
        cases h
      | ok zs =>
        rw [hx, hxs] at h
        cases h
        rw [List.length_cons, List.length_cons, ih hxs]

/-- What the reader of a number breaks down at: a numeral without anything, or outside the patterns
of version 1.2 more than 174 groups to the base of sixty after the first. -/
def NumberFault (k : Schema) (text : Letters) (b : Breakdown) : Prop :=
  (b = .emptyNumeral ∧ dropBars text = []) ∨
    (b = .hugeInteger ∧ k ≠ .modern12 ∧ 174 ≤ (numeralOf text).count (.char ':'))

theorem raises_floatOf (k : Schema) (origin : Nat) (text : Letters) :
    Raises (LoadError.Within (NumberFault k text)) (floatOf k origin text) := by
  unfold floatOf
  refine Raises.bind ?_ fun signed hsign => ?_
  · refine (raises_splitSign _).mono fun e he => he.mono fun b hb => ?_
    exact .inl ⟨hb.1, Letters.lowercase_eq_nil_iff.mp hb.2⟩
  obtain ⟨negative, s⟩ := signed
  dsimp only
  refine .ite (fun _ => .pure _) fun _ => .ite (fun _ => .pure _) fun _ => ?_
  refine .ite (fun hsixty => ?_) fun _ => .ite (fun _ => .throw trivial) fun _ => ?_
  · refine (Raises.mapM (raises_readNumber _) _).bind fun xs hxs => ?_
    refine Raises.bind ?_ fun x _ => .pure _
    have hraises := raises_addSixties xs.reverse 0 (.zero false)
    rw [Nat.pow_zero] at hraises
    refine hraises.mono fun e he => he.mono fun b hb => .inr ⟨hb.1, ?_, ?_⟩
    · have hold : k ≠ .modern12 ∧ .char ':' ∈ s := by simpa using hsixty
      exact hold.1
    · have hlength : xs.length = s.count (.char ':') + 1 :=
        (length_of_mapM hxs).trans (length_groups s)
      have hcount : s.count (.char ':') = (numeralOf text).count (.char ':') :=
        count_of_splitSign hsign
      have hmany := hb.2
      rw [List.length_reverse] at hmany
      omega
  · exact (raises_readNumber _ s).bind fun x _ => .pure _

end Yaml

/-! ## Times -/

theorem Date.make_ok {year month day : Nat} {date : Date} (h : make year month day = .ok date) :
    date = ⟨year, month, day⟩ ∧ year ≤ 9999 ∧ month ≤ 12 ∧
      day ≤ Calendar.daysInMonth year month := by
  unfold make at h
  split at h
  · cases h
  split at h
  · cases h
  split at h
  · cases h
  cases h
  refine ⟨rfl, ?_⟩
  simp_all

theorem DateTime.make_ok {year month day hour minute second microsecond : Nat}
    {offset : Option Int} {t : DateTime}
    (h : make year month day hour minute second microsecond offset = .ok t) :
    ∃ date, Date.make year month day = .ok date ∧ hour ≤ 23 ∧ minute ≤ 59 ∧ second ≤ 59 ∧
      t = ⟨date, hour, minute, second, microsecond, offset⟩ := by
  unfold make at h
  cases hdate : Date.make year month day with
  | error p =>
    rw [hdate] at h
    cases h
  | ok date =>
    rw [hdate] at h
    dsimp only [bind, Except.bind] at h
    split at h
    · cases h
    split at h
    · cases h
    split at h
    · cases h
    cases h
    exact ⟨date, rfl, by omega, by omega, by omega, rfl⟩

/-- A time that no second follows is in the last second of the last day. -/
theorem DateTime.last_of_nextSecond? {t : DateTime} (h : t.nextSecond? = none) :
    59 ≤ t.second ∧ 59 ≤ t.minute ∧ 23 ≤ t.hour ∧ t.date.next? = none := by
  unfold nextSecond? at h
  split at h
  · cases h
  split at h
  · cases h
  split at h
  · cases h
  refine ⟨by omega, by omega, by omega, ?_⟩
  simpa using h

theorem Date.last_of_next? {d : Date} (h : d.next? = none) :
    Calendar.daysInMonth d.year d.month ≤ d.day ∧ 12 ≤ d.month ∧ 9999 ≤ d.year := by
  unfold next? at h
  split at h
  · cases h
  split at h
  · cases h
  split at h
  · cases h
  exact ⟨by omega, by omega, by omega⟩

namespace Yaml

theorem digitIn?_lt {base v : Nat} {c : Char} (h : digitIn? base c = some v) : v < base := by
  unfold digitIn? at h
  simp only [Option.ite_none_right_eq_some, Option.some.injEq] at h
  rw [← h.2]
  exact h.1

theorem natOf_lt (ds : List Char) : natOf ds < 10 ^ ds.length := by
  have hfold : ∀ n, ds.foldl (fun n c => n * 10 + (digitIn? 10 c).getD 0) n <
      (n + 1) * 10 ^ ds.length := by
    induction ds with
    | nil =>
      intro n
      simp
    | cons c ds ih =>
      intro n
      have hdigit : (digitIn? 10 c).getD 0 < 10 := by
        cases hc : digitIn? 10 c with
        | none => simp
        | some v => exact digitIn?_lt hc
      rw [List.foldl_cons, List.length_cons, Nat.pow_succ]
      refine Nat.lt_of_lt_of_le (ih _) ?_
      have hstep : n * 10 + (digitIn? 10 c).getD 0 + 1 ≤ (n + 1) * 10 := by omega
      calc (n * 10 + (digitIn? 10 c).getD 0 + 1) * 10 ^ ds.length
          ≤ (n + 1) * 10 * 10 ^ ds.length := Nat.mul_le_mul_right _ hstep
        _ = (n + 1) * (10 ^ ds.length * 10) := by
            rw [Nat.mul_comm (10 ^ ds.length) 10, Nat.mul_assoc]
  have hzero := hfold 0
  rw [Nat.zero_add, Nat.one_mul] at hzero
  exact hzero

theorem microseconds_lt (ds : List Char) : microseconds ds < 1000000 := by
  unfold microseconds
  have hsix : (ds.take 6).length ≤ 6 := List.length_take_le 6 ds
  have hbound := natOf_lt (ds.take 6 ++ List.replicate (6 - (ds.take 6).length) '0')
  have hlength : (ds.take 6 ++ List.replicate (6 - (ds.take 6).length) '0').length = 6 := by
    rw [List.length_append, List.length_replicate]
    omega
  rw [hlength] at hbound
  exact hbound

/-- A written time in the last second of the last day of the calendar whose fraction is rounded up
to a second more. -/
structure WrittenTimestamp.BeyondLast (w : WrittenTimestamp) : Prop where
  year : natOf w.year = 9999
  month : natOf w.month = 12
  day : natOf w.day = 31
  clock : ∃ t, w.time = some t ∧ natOf t.hour = 23 ∧ natOf t.minute = 59 ∧ natOf t.second = 59 ∧
    microseconds t.fraction = 999999 ∧ roundsUp .modern t.fraction = true

theorem raises_calendar {α : Type} (known : Breakdown → Prop) (r : Except CalendarProblem α) :
    Raises (LoadError.Within known) (calendar r) := by
  cases r with
  | ok v => exact .ok v
  | error p => exact .error trivial

theorem raises_offsetOf (known : Breakdown → Prop) (t : WrittenTime) :
    Raises (LoadError.Within known) (offsetOf t) := by
  unfold offsetOf
  split
  · exact (raises_calendar known _).bind fun m _ => .pure _
  · exact .ok _

theorem calendar_ok {α : Type} {r : Except CalendarProblem α} {v : α} (h : calendar r = .ok v) :
    r = .ok v := by
  cases r with
  | ok w =>
    cases h
    rfl
  | error p => cases h

theorem modern_of_roundsUp {d : Dialect} {ds : List Char} (h : roundsUp d ds = true) :
    d = .modern := by
  unfold roundsUp at h
  rw [Bool.and_eq_true, beq_iff_eq] at h
  exact h.1

theorem raises_timestampOf (d : Dialect) (w : WrittenTimestamp) :
    Raises (LoadError.Within fun b => b = .calendarEnd ∧ d = .modern ∧ w.BeyondLast)
      (timestampOf d w) := by
  unfold timestampOf
  extract_lets year month day
  cases htime : w.time with
  | none => exact (raises_calendar _ _).bind fun date _ => .pure _
  | some t =>
    dsimp only
    refine (raises_offsetOf _ t).bind fun offset _ => ?_
    refine (raises_calendar _ _).bind fun time hmake => ?_
    refine .ite (fun hcarry => ?_) fun _ => .pure _
    cases hnext : time.nextSecond? with
    | some later => exact .pure _
    | none =>
      refine .throw ⟨rfl, ?_⟩
      obtain ⟨date, hdate, hhour, hminute, hsecond, rfl⟩ := DateTime.make_ok (calendar_ok hmake)
      obtain ⟨rfl, hyear, hmonth, hday⟩ := Date.make_ok hdate
      obtain ⟨hsecond', hminute', hhour', hlast⟩ := DateTime.last_of_nextSecond? hnext
      obtain ⟨hday', hmonth', hyear'⟩ := Date.last_of_next? hlast
      dsimp only at hsecond' hminute' hhour' hday' hmonth' hyear'
      have hdecember : month = 12 := Nat.le_antisymm hmonth hmonth'
      have hdays : Calendar.daysInMonth year month = 31 := by
        rw [hdecember]
        rfl
      have hfraction := microseconds_lt t.fraction
      have hsum : microseconds t.fraction + (if roundsUp d t.fraction then 1 else 0) = 1000000 := by
        simpa using hcarry
      have hup : roundsUp d t.fraction = true := by
        by_cases hup : roundsUp d t.fraction = true
        · exact hup
        · rw [if_neg hup] at hsum
          omega
      rw [if_pos hup] at hsum
      have hmodern : d = .modern := modern_of_roundsUp hup
      refine ⟨hmodern, Nat.le_antisymm hyear hyear', hdecember, by omega, t, htime, by omega,
        by omega, by omega, by omega, ?_⟩
      rw [← hmodern]
      exact hup

end Yaml

end YamlCheck
