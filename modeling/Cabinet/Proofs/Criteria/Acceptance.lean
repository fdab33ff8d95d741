import Mathlib.Algebra.Order.BigOperators.GroupWithZero.List
import Mathlib.Algebra.Order.Ring.Nat
import Cabinet.Criteria.Validation

/-! Which lists of criteria are accepted. Main statement: a list is accepted exactly when each
criterion is complete, the criteria go together, and the choices that they leave are not too many. -/

namespace Cabinet

/-- The key can stand among others, there is one condition, and what it gives can be compared. -/
structure Criterion.Complete (x : Criterion) : Prop where
  named : Text.trim x.key ≠ ""
  plain : Text.mentions compositeDelimiter (Text.trim x.key) = false
  single : x.conditionCount = 1
  chosen : x.eqOr ≠ some []
  bounded : ∀ range ∈ x.range, range.kind = .number → ∀ bound ∈ [range.low, range.high],
    ∃ n, Decimal.read? (Text.trim bound) = some n ∧ n.isFinite

def Criterion.IsExact (x : Criterion) : Prop := x.beginsWith = none ∧ x.range = none

theorem isSome_numberIndexText?_iff {s : String} : (numberIndexText? s).isSome ↔
    ∃ n, Decimal.read? (Text.trim s) = some n ∧ n.isFinite := by
  rw [numberIndexText?, Option.isSome_map, Option.isSome_iff_exists]
  simp only [Option.filter_eq_some_iff]

namespace Criteria

variable {limit : Nat} {x : Criterion} {list : List Criterion} {key : String} {seen : List String}
  {isLast anyChoice : Bool}

theorem keyFaults_eq_nil_iff : keyFaults seen key = [] ↔
    Text.mentions compositeDelimiter key = false ∧ key ∉ seen := by
  simp [keyFaults, onlyIf_eq_nil_iff]

theorem conditionFaults_eq_nil_iff : conditionFaults key x = [] ↔
    x.conditionCount = 1 ∧ x.eqOr ≠ some [] := by
  simp only [conditionFaults, List.append_eq_nil_iff, onlyIf_eq_nil_iff, ne_eq,
    and_congr_left_iff]
  omega

theorem boundFaults_eq_nil_iff {range : Range} : boundFaults key range = [] ↔
    (range.kind = .number → ∀ bound ∈ [range.low, range.high],
      ∃ n, Decimal.read? (Text.trim bound) = some n ∧ n.isFinite) := by
  simp only [← isSome_numberIndexText?_iff, boundFaults]
  split
  · rename_i hkind
    simp [hkind, Option.ne_none_iff_isSome]
  · rename_i hkind
    simp [hkind]

theorem placeFaults_eq_nil_iff : placeFaults isLast anyChoice key x = [] ↔
    (isLast = false → x.IsExact) ∧ (∀ range ∈ x.range, boundFaults key range = []) ∧
      (anyChoice → x.IsExact) := by
  obtain ⟨-, -, -, front, range⟩ := x
  cases isLast <;> cases anyChoice <;> cases front <;> cases range <;>
    simp [placeFaults, onlyIf, Criterion.IsExact]

/-- The criteria are complete and go together: none is named twice, only the last one asks for a
beginning or a range, and none does so beside a choice between values. -/
structure WellFormed (list : List Criterion) : Prop where
  nonempty : list ≠ []
  complete : ∀ x ∈ list, x.Complete
  distinct : (list.map fun x => Text.trim x.key).Nodup
  late : ∀ x ∈ list.dropLast, x.IsExact
  exact : (∃ x ∈ list, x.eqOr.isSome) → ∀ x ∈ list, x.IsExact

theorem criterionFaults_cons_eq_nil_iff {rest : List Criterion} :
    criterionFaults anyChoice seen (x :: rest) = [] ↔
      x.Complete ∧ Text.trim x.key ∉ seen ∧ (rest ≠ [] → x.IsExact) ∧ (anyChoice → x.IsExact) ∧
        criterionFaults anyChoice (Text.trim x.key :: seen) rest = [] := by
  simp only [criterionFaults]
  split
  · rename_i hblank
    exact ⟨nofun, fun h => absurd hblank h.1.named⟩
  · rename_i hnamed
    simp only [List.append_eq_nil_iff, keyFaults_eq_nil_iff, conditionFaults_eq_nil_iff,
      placeFaults_eq_nil_iff, boundFaults_eq_nil_iff, List.isEmpty_eq_false_iff]
    constructor
    · rintro ⟨⟨⟨⟨hplain, hseen⟩, hsingle, hchosen⟩, hlate, hbounded, hexact⟩, hrest⟩
      exact ⟨⟨hnamed, hplain, hsingle, hchosen, hbounded⟩, hseen, hlate, hexact, hrest⟩
    · rintro ⟨⟨-, hplain, hsingle, hchosen, hbounded⟩, hseen, hlate, hexact, hrest⟩
      exact ⟨⟨⟨⟨hplain, hseen⟩, hsingle, hchosen⟩, hlate, hbounded, hexact⟩, hrest⟩

theorem criterionFaults_eq_nil_iff : criterionFaults anyChoice seen list = [] ↔
    (∀ x ∈ list, x.Complete) ∧ (∀ x ∈ list, Text.trim x.key ∉ seen) ∧
      (list.map fun x => Text.trim x.key).Nodup ∧ (∀ x ∈ list.dropLast, x.IsExact) ∧
      (anyChoice → ∀ x ∈ list, x.IsExact) := by
  induction list generalizing seen with
  | nil => simp [criterionFaults]
  | cons x rest ih =>
    have hlate : (∀ y ∈ (x :: rest).dropLast, y.IsExact) ↔
        (rest ≠ [] → x.IsExact) ∧ ∀ y ∈ rest.dropLast, y.IsExact := by
      cases rest <;> simp
    rw [criterionFaults_cons_eq_nil_iff, ih, hlate]
    simp only [List.map_cons, List.nodup_cons, List.mem_map, List.mem_cons, not_or, not_exists,
      not_and]
    grind

theorem eq_or_eqOr_of_isExact (hsingle : x.conditionCount = 1) (hexact : x.IsExact) :
    (∃ value, x.eq = some value ∧ x.eqOr = none) ∨ ∃ values, x.eq = none ∧ x.eqOr = some values := by
  obtain ⟨key, eq, eqOr, front, range⟩ := x
  obtain ⟨rfl, rfl⟩ : front = none ∧ range = none := hexact
  cases eq with
  | some value =>
    cases eqOr with
    | some values => cases hsingle
    | none => exact .inl ⟨value, rfl, rfl⟩
  | none =>
    cases eqOr with
    | some values => exact .inr ⟨values, rfl, rfl⟩
    | none => cases hsingle

theorem WellFormed.tailFaults_eq_nil (h : WellFormed list) : tailFaults list = [] := by
  unfold tailFaults
  split
  · rename_i last hlast
    split
    · rename_i hopen
      simp only [List.map_eq_nil_iff, List.filter_eq_nil_iff]
      intro x hx
      have hmem : x ∈ list := List.dropLast_subset list hx
      rcases eq_or_eqOr_of_isExact (h.complete x hmem).single (h.late x hx) with
        ⟨value, heq, -⟩ | ⟨values, -, hchoice⟩
      · simp [heq]
      · obtain ⟨hfront, hrange⟩ := h.exact ⟨x, hmem, by simp [hchoice]⟩ last
          (List.mem_of_getLast? hlast)
        simp [hfront, hrange] at hopen
    · rfl
  · rfl

def product (list : List Criterion) : Nat := (list.map fun x => x.choices.length).prod

theorem foldl_none (list : List Criterion) : list.foldl
    (fun (n : Option Nat) c => (n.map (· * c.choices.length)).filter (· ≤ countCap)) none = none := by
  induction list with
  | nil => rfl
  | cons x rest ih => exact ih

theorem foldl_some (hchoices : ∀ x ∈ list, x.choices ≠ []) {n : Nat} (hn : n ≤ countCap) :
    list.foldl (fun (n : Option Nat) c => (n.map (· * c.choices.length)).filter (· ≤ countCap))
      (some n) = (some (n * product list)).filter (· ≤ countCap) := by
  induction list generalizing n with
  | nil => simp [product, Option.filter, hn]
  | cons x rest ih =>
    obtain ⟨-, hrest⟩ := List.forall_mem_cons.1 hchoices
    have hproduct : n * product (x :: rest) = n * x.choices.length * product rest := by
      rw [product, List.map_cons, List.prod_cons, product, Nat.mul_assoc]
    rw [List.foldl_cons, hproduct, Option.map_some]
    by_cases hle : n * x.choices.length ≤ countCap
    · rw [Option.filter_some_pos (by simpa using hle), ih hrest hle]
    · have hone : 0 < product rest := List.prod_pos (by
        simpa [List.length_pos_iff] using hrest)
      have hlarge : ¬ n * x.choices.length * product rest ≤ countCap := fun h =>
        hle ((Nat.le_mul_of_pos_right _ hone).trans h)
      rw [Option.filter_some_neg (by simpa using hle), foldl_none,
        Option.filter_some_neg (by simpa using hlarge)]

theorem combinationCount_eq (hchoices : ∀ x ∈ list, x.choices ≠ []) :
    combinationCount list = min (product list) countCap := by
  simp only [combinationCount, foldl_some hchoices (by decide : 1 ≤ countCap), Nat.one_mul]
  by_cases hle : product list ≤ countCap
  · simp [Option.filter, hle]
  · simp [Option.filter, hle, Nat.le_of_not_le hle]

theorem WellFormed.choices_ne_nil (h : WellFormed list) (hchoice : ∃ x ∈ list, x.eqOr.isSome) :
    ∀ x ∈ list, x.choices ≠ [] := by
  intro x hx
  rcases eq_or_eqOr_of_isExact (h.complete x hx).single (h.exact hchoice x hx) with
    ⟨value, heq, hor⟩ | ⟨values, -, hor⟩
  · simp [Criterion.choices, heq, hor]
  · have hchosen := (h.complete x hx).chosen
    simpa [Criterion.choices, hor] using hchosen

theorem product_eq (h : ∀ x ∈ list, x.conditionCount = 1 ∧ x.IsExact) :
    product list = ((list.filterMap (·.eqOr)).map List.length).prod := by
  induction list with
  | nil => rfl
  | cons x rest ih =>
    obtain ⟨⟨hsingle, hexact⟩, hrest⟩ := List.forall_mem_cons.1 h
    have ih := ih hrest
    rw [product] at ih
    rw [product, List.map_cons, List.prod_cons, ih]
    rcases eq_or_eqOr_of_isExact hsingle hexact with ⟨value, heq, hor⟩ | ⟨values, -, hor⟩
    · simp [Criterion.choices, heq, hor]
    · simp [Criterion.choices, hor]

theorem WellFormed.countFaults_eq_nil_iff (h : WellFormed list) (hlimit : limit < countCap) :
    countFaults limit list = [] ↔ ((∃ x ∈ list, x.eqOr.isSome) →
      ((list.filterMap (·.eqOr)).map List.length).prod ≤ limit) := by
  rw [countFaults, onlyIf_eq_nil_iff, List.any_eq_true, not_and]
  refine forall_congr' fun hchoice => ?_
  rw [combinationCount_eq (h.choices_ne_nil hchoice),
    product_eq fun x hx => ⟨(h.complete x hx).single, h.exact hchoice x hx⟩]
  omega

theorem check_eq_ok_iff {criteria : Criteria} :
    check limit list = .ok criteria ↔ faults limit list = [] ∧ criteria = ⟨list⟩ := by
  unfold check
  split
  · rename_i hfaults
    simp [hfaults, eq_comm]
  · rename_i hfound
    exact ⟨nofun, fun h => absurd h.1 hfound⟩

theorem faults_eq_nil_iff : faults limit list = [] ↔
    WellFormed list ∧ countFaults limit list = [] := by
  unfold faults
  split
  · rename_i hnil
    exact ⟨nofun, fun h => absurd hnil h.1.nonempty⟩
  · rename_i hne
    rw [List.append_eq_nil_iff, List.append_eq_nil_iff, criterionFaults_eq_nil_iff,
      List.any_eq_true]
    constructor
    · rintro ⟨⟨⟨hcomplete, -, hdistinct, hlate, hexact⟩, -⟩, hcount⟩
      exact ⟨⟨hne, hcomplete, hdistinct, hlate, hexact⟩, hcount⟩
    · rintro ⟨h, hcount⟩
      exact ⟨⟨⟨h.complete, fun _ _ => List.not_mem_nil, h.distinct, h.late, h.exact⟩,
        h.tailFaults_eq_nil⟩, hcount⟩

theorem wellFormed_of_check {criteria : Criteria} (h : check limit list = .ok criteria) :
    WellFormed list :=
  (faults_eq_nil_iff.1 (check_eq_ok_iff.1 h).1).1

/-- Below the largest word as limit, a list of criteria is accepted exactly when it is well formed
and, where some criterion leaves a choice, the product of the numbers of choices is not above the
limit. -/
theorem accepted_iff (hlimit : limit < countCap) : (∃ criteria, check limit list = .ok criteria) ↔
    WellFormed list ∧ ((∃ x ∈ list, x.eqOr.isSome) →
      ((list.filterMap (·.eqOr)).map List.length).prod ≤ limit) := by
  simp only [check_eq_ok_iff, exists_and_left, exists_eq, and_true]
  rw [faults_eq_nil_iff]
  exact and_congr_right fun h => h.countFaults_eq_nil_iff hlimit

def sizesAndColours : List Criterion :=
  [{ key := "size", eqOr := some ["s", "m"] }, { key := " kind", eq := some "shirt" },
    { key := "colour", eqOr := some ["red", "green", "blue"] }]

theorem sizesAndColours_accepted :
    (WellFormed sizesAndColours ∧ ((∃ x ∈ sizesAndColours, x.eqOr.isSome) →
      ((sizesAndColours.filterMap (·.eqOr)).map List.length).prod ≤ 6)) ∧
    ¬ ∃ criteria, check 5 sizesAndColours = .ok criteria := by
  refine ⟨(accepted_iff (by decide)).1 ⟨⟨sizesAndColours⟩, by decide +kernel⟩, ?_⟩
  rw [accepted_iff (by decide)]
  exact fun h => absurd (h.2 ⟨_, List.mem_cons_self, rfl⟩) (by decide)

end Criteria

end Cabinet
