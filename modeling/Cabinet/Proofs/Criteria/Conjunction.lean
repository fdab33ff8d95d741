import Mathlib.Data.List.Forall2
import Cabinet.Proofs.Criteria.Expansion
import Cabinet.Proofs.Criteria.Meaning
import Cabinet.Proofs.Text.Joined
import Cabinet.Proofs.Text.Padded

/-! Criteria on several attributes. Main statement: joined texts meet a condition of the plan exactly
when each criterion accepts its text. -/

namespace Cabinet

namespace Condition

variable {p s low high : String} {condition : Condition}

/-- The condition on a text that begins with `p` and satisfies `condition` from there on. -/
def behind (p : String) : Condition → Condition
  | .equals value => .equals (p ++ value)
  | .beginsWith front => .beginsWith (p ++ front)
  | .between low high => .between (p ++ low) (p ++ high)

theorem append_le_append_iff : p ++ low ≤ p ++ high ↔ low ≤ high := by
  rw [← not_lt, ← not_lt, Text.append_lt_append_iff]

theorem exists_of_between (hlow : p ++ low ≤ s) (hhigh : s ≤ p ++ high) : ∃ rest, s = p ++ rest := by
  rcases hlow.lt_or_eq with hlt | rfl
  · rcases hhigh.lt_or_eq with hlt' | rfl
    · exact Text.beginsWith_iff.1 (Text.beginsWith_of_between hlt hlt')
    · exact ⟨high, rfl⟩
  · exact ⟨low, rfl⟩

theorem holds_behind : (condition.behind p).holds s ↔ ∃ rest, s = p ++ rest ∧ condition.holds rest := by
  cases condition with
  | equals value => simp [behind, holds]
  | beginsWith front =>
    simp only [behind, holds, Text.beginsWith_iff]
    constructor
    · rintro ⟨rest, rfl⟩
      exact ⟨front ++ rest, String.append_assoc .., rest, rfl⟩
    · rintro ⟨-, rfl, rest, rfl⟩
      exact ⟨rest, (String.append_assoc ..).symm⟩
  | between low high =>
    simp only [behind, holds, decide_eq_true_eq]
    constructor
    · rintro ⟨hlow, hhigh⟩
      obtain ⟨rest, rfl⟩ := exists_of_between hlow hhigh
      exact ⟨rest, rfl, append_le_append_iff.1 hlow, append_le_append_iff.1 hhigh⟩
    · rintro ⟨rest, rfl, hlow, hhigh⟩
      exact ⟨append_le_append_iff.2 hlow, append_le_append_iff.2 hhigh⟩

end Condition

theorem forall₂_concat_iff {α β : Type} {R : α → β → Prop} {as : List α} {bs : List β} {a : α}
    {b : β} : List.Forall₂ R (as ++ [a]) (bs ++ [b]) ↔ List.Forall₂ R as bs ∧ R a b := by
  rw [← List.forall₂_reverse_iff, List.reverse_concat, List.reverse_concat, List.forall₂_cons,
    List.forall₂_reverse_iff, and_comm]

variable {x : Criterion} {fronts : List Criterion} {texts : List String} {t : String}

theorem Criterion.accepts_iff_mem_choices (hsingle : x.conditionCount = 1) (hexact : x.IsExact) :
    x.Accepts t ↔ t ∈ x.choices := by
  rcases Criteria.eq_or_eqOr_of_isExact hsingle hexact with ⟨value, heq, hor⟩ | ⟨values, heq, hor⟩
  · simp only [choices, heq, hor, List.mem_singleton]
    refine ⟨fun h => h.eq value heq, fun h => ⟨?_, ?_, ?_, ?_⟩⟩ <;>
      simp [heq, hor, hexact.1, hexact.2, h]
  · simp only [choices, hor]
    refine ⟨fun h => h.eqOr values hor, fun h => ⟨?_, ?_, ?_, ?_⟩⟩ <;>
      simp [heq, hor, hexact.1, hexact.2, h]

theorem Criterion.forall₂_accepts_iff (h : ∀ x ∈ fronts, x.conditionCount = 1 ∧ x.IsExact) :
    List.Forall₂ Criterion.Accepts fronts texts ↔
      List.Forall₂ (fun x t => t ∈ x.choices) fronts texts := by
  induction fronts generalizing texts with
  | nil => simp
  | cons x fronts ih =>
    obtain ⟨⟨hsingle, hexact⟩, hfronts⟩ := List.forall_mem_cons.1 h
    simp only [List.forall₂_cons_left_iff, accepts_iff_mem_choices hsingle hexact, ih hfronts]

namespace Criteria

variable {limit : Nat} {criteria : Criteria} {list : List Criterion} {condition : Condition}

theorem mem_joinedChoices {lists : List (List String)} {s : String} : s ∈ joinedChoices lists ↔
    ∃ values, List.Forall₂ (fun vs v => v ∈ vs) lists values ∧
      Text.joinWith compositeDelimiter values = s := by
  simp only [joinedChoices_eq_map, List.mem_map, Attribute.mem_combinations]

theorem eq_of_joinWith_concat_eq {values : List String} {v : String}
    (hlength : texts.length = fronts.length) (htexts : ∀ s ∈ texts, ':' ∉ s.toList)
    (hchosen : List.Forall₂ (fun x v => v ∈ x.choices) fronts values)
    (hvalues : ∀ x ∈ fronts, ∀ v ∈ x.choices, ':' ∉ v.toList)
    (h : Text.joinWith compositeDelimiter (texts ++ [t]) =
      Text.joinWith compositeDelimiter (values ++ [v])) : texts = values ∧ t = v := by
  have hcolon : ∀ v ∈ values, ':' ∉ v.toList := by
    intro v hv
    obtain ⟨i, hi, rfl⟩ := List.mem_iff_getElem.1 hv
    have hi' : i < fronts.length := hchosen.length_eq ▸ hi
    exact hvalues _ (List.getElem_mem hi') _ (hchosen.get hi' hi)
  have hsame := Text.eq_of_joinWith_eq (by simp [hlength, hchosen.length_eq])
    (by rwa [List.dropLast_concat]) (by rwa [List.dropLast_concat]) h
  obtain ⟨hfronts, hlast⟩ := List.append_inj' hsame rfl
  exact ⟨hfronts, List.singleton_inj.1 hlast⟩

/-- The values that criteria fix, each with the delimiter behind it. -/
def front (fronts : List Criterion) : String :=
  Text.joinWith compositeDelimiter (fronts.filterMap (·.eq) ++ [""])

theorem behindEq_concat (hx : x.eq = none) (value : String) :
    behindEq ⟨fronts ++ [x]⟩ value = front fronts ++ value := by
  have hvalues : eqValues ⟨fronts ++ [x]⟩ = fronts.filterMap (·.eq) := by simp [eqValues, hx]
  rw [front, ← Text.joinWith_concat, behindEq, hvalues]
  split
  · rename_i hnil
    rw [hnil]
    rfl
  · rename_i hne
    rw [Text.joinWith_append _ hne (List.cons_ne_nil value []), Text.joinWith_singleton]

theorem behindEq_self (hx : x.eq = none) (value : String) : behindEq ⟨[x]⟩ value = value := by
  have hempty : behindEq ⟨[] ++ [x]⟩ value = front [] ++ value := behindEq_concat hx value
  simpa [front] using hempty

theorem plan_concat (hfronts : ∀ y ∈ fronts, y.eqOr = none) (hx : x.Complete)
    (hchoice : x.eqOr = none) (hplan : (compile ⟨[x]⟩).plan = .single condition) :
    (compile ⟨fronts ++ [x]⟩).plan = .single (condition.behind (front fronts)) := by
  have hany : (fronts ++ [x]).any (·.eqOr.isSome) = false := by simpa [hchoice] using hfronts
  have hcount := hx.single
  have hbehind (hopen : x.eq = none) (value : String) :
      behindEq ⟨fronts ++ [x]⟩ value = front fronts ++ value := behindEq_concat hopen value
  obtain ⟨key, eq, eqOr, start, range⟩ := x
  obtain rfl : eqOr = none := hchoice
  cases range with
  | some range =>
    cases eq <;> cases start <;> try cases hcount
    cases hplan
    simp [compile, hany, hbehind rfl, CompiledCriteria.plan, Condition.behind, behindEq_self]
  | none =>
    cases start with
    | some start =>
      cases eq <;> try cases hcount
      cases hplan
      simp [compile, hany, hbehind rfl, CompiledCriteria.plan, Condition.behind, behindEq_self]
    | none =>
      cases eq with
      | none => cases hcount
      | some value =>
        cases hplan
        rw [front]
        simp [compile, hany, CompiledCriteria.plan, Condition.behind, eqValues, ← Text.joinWith_concat]

theorem forall₂_accepts_iff_of_fixed (h : ∀ x ∈ fronts, x.Complete ∧ x.IsExact ∧ x.eqOr = none) :
    List.Forall₂ Criterion.Accepts fronts texts ↔ texts = fronts.filterMap (·.eq) := by
  rw [Criterion.forall₂_accepts_iff fun x hx => ⟨(h x hx).1.single, (h x hx).2.1⟩]
  induction fronts generalizing texts with
  | nil => simp
  | cons x fronts ih =>
    obtain ⟨⟨hcomplete, hexact, hchoice⟩, hfronts⟩ := List.forall_mem_cons.1 h
    rcases eq_or_eqOr_of_isExact hcomplete.single hexact with ⟨value, heq, -⟩ | ⟨values, -, hor⟩
    · have hfixed : x.choices = [value] := by simp [Criterion.choices, heq, hchoice]
      simp [List.forall₂_cons_left_iff, ih hfronts, hfixed, heq]
    · rw [hchoice] at hor
      cases hor

theorem holds_behind_iff (h : ∀ x ∈ fronts, x.Complete ∧ x.IsExact ∧ x.eqOr = none)
    (hvalues : ∀ x ∈ fronts, ∀ v ∈ x.choices, ':' ∉ v.toList) (hlength : texts.length = fronts.length)
    (htexts : ∀ s ∈ texts, ':' ∉ s.toList) :
    (condition.behind (front fronts)).holds (Text.joinWith compositeDelimiter (texts ++ [t])) ↔
      List.Forall₂ Criterion.Accepts fronts texts ∧ condition.holds t := by
  rw [Condition.holds_behind, forall₂_accepts_iff_of_fixed h]
  simp only [front, ← Text.joinWith_concat]
  constructor
  · rintro ⟨rest, hrest, hholds⟩
    have hfixed := (forall₂_accepts_iff_of_fixed h).2 rfl
    rw [Criterion.forall₂_accepts_iff fun x hx => ⟨(h x hx).1.single, (h x hx).2.1⟩] at hfixed
    obtain ⟨rfl, hlast⟩ := eq_of_joinWith_concat_eq hlength htexts hfixed hvalues hrest
    exact ⟨rfl, hlast ▸ hholds⟩
  · rintro ⟨rfl, hholds⟩
    exact ⟨t, rfl, hholds⟩

theorem mem_joinedChoices_iff (h : ∀ y ∈ fronts ++ [x], y.conditionCount = 1 ∧ y.IsExact)
    (hvalues : ∀ y ∈ fronts, ∀ v ∈ y.choices, ':' ∉ v.toList) (hlength : texts.length = fronts.length)
    (htexts : ∀ s ∈ texts, ':' ∉ s.toList) :
    Text.joinWith compositeDelimiter (texts ++ [t]) ∈
        joinedChoices ((fronts ++ [x]).map Criterion.choices) ↔
      List.Forall₂ Criterion.Accepts (fronts ++ [x]) (texts ++ [t]) := by
  simp only [mem_joinedChoices, List.forall₂_map_left_iff, Criterion.forall₂_accepts_iff h]
  constructor
  · rintro ⟨values, hchosen, hjoined⟩
    rcases values.eq_nil_or_concat' with rfl | ⟨values, v, rfl⟩
    · simp at hchosen
    · obtain ⟨hfronts, hlast⟩ := forall₂_concat_iff.1 hchosen
      obtain ⟨rfl, rfl⟩ := eq_of_joinWith_concat_eq hlength htexts hfronts hvalues hjoined.symm
      exact hchosen
  · intro hchosen
    exact ⟨texts ++ [t], hchosen, rfl⟩

/-- Texts are joined, and none but the last of them has a colon, nor have the values asked for there.
The whole meets a condition of the plan exactly when each criterion accepts its text. -/
theorem plan_holds_iff (h : check limit list = .ok criteria) (hlength : texts.length = list.length)
    (htexts : ∀ s ∈ texts.dropLast, ':' ∉ s.toList)
    (hvalues : ∀ x ∈ list.dropLast, ∀ v ∈ x.choices, ':' ∉ v.toList) :
    (∃ condition ∈ criteria.compile.plan.conditions,
        condition.holds (Text.joinWith compositeDelimiter texts)) ↔
      List.Forall₂ Criterion.Accepts list texts := by
  have hformed := wellFormed_of_check h
  obtain ⟨-, rfl⟩ := check_eq_ok_iff.1 h
  rcases list.eq_nil_or_concat' with rfl | ⟨fronts, x, rfl⟩
  · exact absurd rfl hformed.nonempty
  rcases texts.eq_nil_or_concat' with rfl | ⟨texts, t, rfl⟩
  · simp at hlength
  rw [List.dropLast_concat] at htexts hvalues
  simp only [List.length_append, List.length_singleton, Nat.add_right_cancel_iff] at hlength
  by_cases hchoice : ∃ y ∈ fronts ++ [x], y.eqOr.isSome
  · have hexact := fun y hy => (⟨(hformed.complete y hy).single, hformed.exact hchoice y hy⟩ :
      y.conditionCount = 1 ∧ y.IsExact)
    have hplan : (compile ⟨fronts ++ [x]⟩).plan =
        .expand (joinedChoices ((fronts ++ [x]).map Criterion.choices)) := plan_of_choice hchoice
    rw [hplan, ← mem_joinedChoices_iff hexact hvalues hlength htexts]
    simp [SearchPlan.conditions, Condition.holds]
  · have hnone : ∀ y ∈ fronts ++ [x], y.eqOr = none := fun y hy =>
      Option.not_isSome_iff_eq_none.1 fun hsome => hchoice ⟨y, hy, hsome⟩
    have hlast : x ∈ fronts ++ [x] := by simp
    obtain ⟨condition, hplan, hholds⟩ := plan_single (hformed.complete x hlast) (hnone x hlast)
    have hfronts : ∀ y ∈ fronts, y.Complete ∧ y.IsExact ∧ y.eqOr = none := fun y hy =>
      ⟨hformed.complete y (List.mem_append_left _ hy), hformed.late y (by simpa using hy),
        hnone y (List.mem_append_left _ hy)⟩
    rw [plan_concat (fun y hy => (hfronts y hy).2.2) (hformed.complete x hlast) (hnone x hlast) hplan,
      forall₂_concat_iff, ← hholds, ← holds_behind_iff hfronts hvalues hlength htexts]
    simp [SearchPlan.conditions]

def redShirts : List Criterion :=
  [{ key := "kind", eq := some "shirt" }, { key := "colour", eq := some "red" },
    { key := "size", range := some ⟨.number, "5", "1e1"⟩ }]

theorem redShirts_plan_holds : check 1 redShirts = .ok ⟨redShirts⟩ ∧
    List.Forall₂ Criterion.Accepts redShirts ["shirt", "red", (numberIndexText? " 7.5").getD ""] ∧
    ¬ List.Forall₂ Criterion.Accepts redShirts ["shirt", "red", "7.5"] := by
  have hcheck : check 1 redShirts = .ok ⟨redShirts⟩ := by decide +kernel
  have hvalues : ∀ x ∈ redShirts.dropLast, ∀ v ∈ x.choices, ':' ∉ v.toList := by decide +kernel
  refine ⟨hcheck, (plan_holds_iff hcheck rfl (by decide +kernel) hvalues).1 (by decide +kernel), ?_⟩
  rw [← plan_holds_iff hcheck rfl (by decide +kernel) hvalues]
  decide +kernel

end Criteria

end Cabinet
