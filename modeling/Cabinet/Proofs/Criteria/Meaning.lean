import Cabinet.Criteria.Plan
import Cabinet.Proofs.Criteria.Acceptance

/-! What criteria ask of the values of documents. Main statement: a single criterion that leaves no
choice is searched for under a condition that holds of the texts that it accepts. -/

namespace Cabinet

/-- Between the bounds. Bounds that are numbers count by their index texts. -/
def Range.Includes (range : Range) (text : String) : Prop :=
  match range.kind with
  | .text => range.low ≤ text ∧ text ≤ range.high
  | .number => ∃ low ∈ numberIndexText? range.low, ∃ high ∈ numberIndexText? range.high,
      low ≤ text ∧ text ≤ high

/-- The index text of a value meets every condition of a criterion. -/
structure Criterion.Accepts (x : Criterion) (text : String) : Prop where
  eq : ∀ value ∈ x.eq, text = value
  eqOr : ∀ values ∈ x.eqOr, text ∈ values
  beginsWith : ∀ front ∈ x.beginsWith, ∃ rest, text = front ++ rest
  range : ∀ range ∈ x.range, range.Includes text

theorem Criterion.accepts_range_iff {key text : String} {range : Range} :
    Criterion.Accepts { key, range := some range } text ↔ range.Includes text :=
  ⟨fun h => h.range range rfl,
    fun h => ⟨nofun, nofun, nofun, fun _ hrange => Option.some.inj hrange ▸ h⟩⟩

namespace Criteria

variable {limit : Nat} {x : Criterion} {criteria : Criteria} {list : List Criterion}

theorem key_compile (criteria : Criteria) :
    criteria.compile.key = Attribute.compositeName criteria.keys := by
  simp only [compile]
  split
  · rfl
  · split <;> rfl

theorem plan_of_choice (h : ∃ x ∈ criteria.list, x.eqOr.isSome) : criteria.compile.plan =
    .expand (joinedChoices (criteria.list.map Criterion.choices)) := by
  have hany : criteria.list.any (·.eqOr.isSome) = true := List.any_eq_true.2 h
  simp only [compile, hany, if_true]
  rfl

theorem isSome_of_complete {range : Range} (h : x.Complete) (hrange : x.range = some range)
    (hkind : range.kind = .number) :
    (numberIndexText? range.low).isSome ∧ (numberIndexText? range.high).isSome := by
  have hbounds := h.bounded range hrange hkind
  simpa only [isSome_numberIndexText?_iff, List.forall_mem_cons, List.not_mem_nil, false_implies,
    implies_true, and_true] using hbounds

theorem plan_single (h : x.Complete) (hchoice : x.eqOr = none) :
    ∃ condition, (compile ⟨[x]⟩).plan = .single condition ∧
      ∀ text, condition.holds text ↔ x.Accepts text := by
  have hcount := h.single
  obtain ⟨key, eq, eqOr, front, range⟩ := x
  obtain rfl : eqOr = none := hchoice
  cases eq with
  | some value =>
    cases front <;> cases range <;> try cases hcount
    refine ⟨.equals value, rfl, fun text => decide_eq_true_iff.trans ⟨fun he => ?_, fun ha => ?_⟩⟩
    · exact ⟨fun v hv => he.trans (Option.some.inj hv), nofun, nofun, nofun⟩
    · exact ha.eq value rfl
  | none =>
    cases front with
    | some front =>
      cases range <;> try cases hcount
      refine ⟨.beginsWith front, rfl, fun text => Text.beginsWith_iff.trans ⟨fun he => ?_, fun ha => ?_⟩⟩
      · exact ⟨nofun, nofun, fun f hf => Option.some.inj hf ▸ he, nofun⟩
      · exact ha.beginsWith front rfl
    | none =>
      cases range with
      | none => cases hcount
      | some range =>
        refine ⟨.between (indexRange range).low (indexRange range).high, rfl, fun text => ?_⟩
        rw [Criterion.accepts_range_iff, Condition.holds, decide_eq_true_iff]
        have hbounds := isSome_of_complete h rfl
        obtain ⟨kind, low, high⟩ := range
        cases kind with
        | text => rfl
        | number =>
          obtain ⟨hlow, hhigh⟩ := hbounds rfl
          obtain ⟨low', hlow'⟩ := Option.isSome_iff_exists.1 hlow
          obtain ⟨high', hhigh'⟩ := Option.isSome_iff_exists.1 hhigh
          simp [indexRange, Range.Includes, hlow', hhigh']

theorem exists_condition (h : check limit [x] = .ok criteria) (hchoice : x.eqOr = none) :
    criteria.compile.key = x.key ∧ criteria.isComposite = false ∧
      ∃ condition, criteria.compile.plan = .single condition ∧
        ∀ text, condition.holds text ↔ x.Accepts text := by
  have hcomplete := (wellFormed_of_check h).complete x List.mem_cons_self
  obtain ⟨-, rfl⟩ := check_eq_ok_iff.1 h
  exact ⟨key_compile _, rfl, plan_single hcomplete hchoice⟩

end Criteria

end Cabinet
