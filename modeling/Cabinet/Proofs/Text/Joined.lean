import Mathlib.Data.List.Chain
import Cabinet.Key.Partition
import Cabinet.Text.Affix
import Cabinet.Text.Pieces

/-! Texts that are joined with `"::"`. Main statement: which texts no other texts in the same number
give the same when joined. -/

namespace Cabinet.Text

/-- No text has the delimiter in it, and none has a colon where it is joined to the next. -/
structure Separable (ss : List String) : Prop where
  solid : ∀ s ∈ ss, mentions compositeDelimiter s = false
  chain : ss.IsChain fun s s' => endsWith ":" s = false ∧ beginsWith ":" s' = false

instance (ss : List String) : Decidable (Separable ss) :=
  decidable_of_iff ((∀ s ∈ ss, mentions compositeDelimiter s = false) ∧
    ss.IsChain fun s s' => endsWith ":" s = false ∧ beginsWith ":" s' = false)
    ⟨fun h => ⟨h.1, h.2⟩, fun h => ⟨h.solid, h.chain⟩⟩

theorem Separable.tail {s : String} {ss : List String} (h : Separable (s :: ss)) : Separable ss :=
  ⟨fun s' hs' => h.solid s' (List.mem_cons_of_mem s hs'), h.chain.tail⟩

variable {s s' u v w : String}

/-- Where two delimiters can stand in one text: at one place, overlapping, or one behind the other. -/
theorem delimiter_cases {x a b : List Char} (h : ':' :: ':' :: a = x ++ ':' :: ':' :: b) :
    x = [] ∧ a = b ∨ x = [':'] ∧ a = ':' :: b ∨
      ∃ y, x = ':' :: ':' :: y ∧ a = y ++ ':' :: ':' :: b := by
  match x, h with
  | [], h => exact .inl ⟨rfl, by simpa using h⟩
  | [c], h =>
    have h : ':' = c ∧ a = ':' :: b := by simpa using h
    exact .inr (.inl ⟨congrArg (fun c => [c]) h.1.symm, h.2⟩)
  | c :: c' :: y, h =>
    have h : ':' = c ∧ ':' = c' ∧ a = y ++ ':' :: ':' :: b := by simpa using h
    exact .inr (.inr ⟨y, by rw [← h.1, ← h.2.1], h.2.2⟩)

/-- Behind a text without the delimiter in it or a colon at its end, the delimiter stands as early as
in any other cut. -/
theorem cut_cases (hsolid : mentions compositeDelimiter s = false) (hends : endsWith ":" s = false)
    (h : u ++ compositeDelimiter ++ v = s ++ compositeDelimiter ++ w) :
    u = s ∧ v = w ∨ w = ":" ++ v ∨ ∃ x, w = x ++ compositeDelimiter ++ v := by
  have hlist : u.toList ++ ':' :: ':' :: v.toList = s.toList ++ ':' :: ':' :: w.toList := by
    simpa [compositeDelimiter] using congrArg String.toList h
  rcases List.append_eq_append_iff.1 hlist with ⟨x, hx, hrest⟩ | ⟨x, hx, hrest⟩
  · -- the other cut would come within `s`
    rcases delimiter_cases hrest with ⟨rfl, hvw⟩ | ⟨rfl, -⟩ | ⟨y, rfl, -⟩
    · exact .inl ⟨by simp [← String.toList_inj, hx], String.toList_inj.1 hvw⟩
    · have hcolon : endsWith ":" s := endsWith_iff.2 ⟨u, by simp [← String.toList_inj, hx]⟩
      rw [hends] at hcolon
      cases hcolon
    · have hmentions : mentions compositeDelimiter s := mentions_iff.2
        ⟨u, String.ofList y, by simp [← String.toList_inj, hx, compositeDelimiter]⟩
      rw [hsolid] at hmentions
      cases hmentions
  · rcases delimiter_cases hrest with ⟨rfl, hvw⟩ | ⟨-, hw⟩ | ⟨y, -, hw⟩
    · exact .inl ⟨by simp [← String.toList_inj, hx], String.toList_inj.1 hvw.symm⟩
    · exact .inr (.inl (by simp [← String.toList_inj, hw]))
    · exact .inr (.inr ⟨String.ofList y, by simp [← String.toList_inj, hw, compositeDelimiter]⟩)

/-- Texts that are joined in an end of separable ones are the last of those, the first of them maybe
cut short. -/
theorem Separable.eq_of_end {ss : List String} (hss : Separable ss) {z u : String}
    {ts : List String} (hlength : ts.length + 1 = ss.length)
    (h : z ++ joinWith compositeDelimiter (u :: ts) = joinWith compositeDelimiter ss) :
    ss = (z ++ u) :: ts := by
  induction ss generalizing z u ts with
  | nil => cases hlength
  | cons s ss ih =>
    have hlength : ts.length = ss.length := Nat.succ.inj hlength
    match ss, ts, hlength with
    | [], [], _ =>
      have hs : z ++ u = s := h
      rw [hs]
    | r :: ss, u' :: ts, hlength =>
      obtain ⟨⟨hends, hbegins⟩, -⟩ := List.isChain_cons_cons.1 hss.chain
      have hcut : z ++ u ++ compositeDelimiter ++ joinWith compositeDelimiter (u' :: ts) =
          s ++ compositeDelimiter ++ joinWith compositeDelimiter (r :: ss) := by
        simpa [joinWith, String.append_assoc] using h
      rcases cut_cases (hss.solid s List.mem_cons_self) hends hcut with ⟨hs, hrest⟩ | hrest | ⟨x, hrest⟩
      · have hend := ih hss.tail (z := "") hlength (by simpa using hrest)
        rw [hend, hs, String.empty_append]
      · -- the next text would begin with a colon
        obtain ⟨hr, -⟩ := List.cons.inj (ih hss.tail hlength hrest.symm)
        rw [hr, beginsWith_append] at hbegins
        cases hbegins
      · -- the next text would have the delimiter in it
        obtain ⟨hr, -⟩ := List.cons.inj (ih hss.tail hlength hrest.symm)
        have hsolid := hss.solid r (by simp)
        rw [hr, mentions_iff.2 ⟨x, u', rfl⟩] at hsolid
        cases hsolid

theorem joinWith_congr (before after : List String)
    (h : u ++ compositeDelimiter ++ v = s ++ compositeDelimiter ++ s') :
    joinWith compositeDelimiter (before ++ u :: v :: after) =
      joinWith compositeDelimiter (before ++ s :: s' :: after) := by
  have htail : joinWith compositeDelimiter (u :: v :: after) =
      joinWith compositeDelimiter (s :: s' :: after) := by
    cases after with
    | nil => exact h
    | cons a after =>
      rw [joinWith, joinWith, joinWith, joinWith]
      simpa [String.append_assoc] using congrArg (· ++ (compositeDelimiter ++
        joinWith compositeDelimiter (a :: after))) h
  cases before with
  | nil => exact htail
  | cons b before =>
    rw [joinWith_append _ (List.cons_ne_nil b before) (List.cons_ne_nil u _), htail,
      joinWith_append _ (List.cons_ne_nil b before) (List.cons_ne_nil s _)]

/-- Two or more texts are separable exactly when no others in the same number are the same when
joined. -/
theorem separable_iff {ss : List String} (htwo : 2 ≤ ss.length) : Separable ss ↔
    ∀ ts, ts.length = ss.length →
      joinWith compositeDelimiter ts = joinWith compositeDelimiter ss → ts = ss := by
  constructor
  · intro hss ts hlength h
    cases ts with
    | nil =>
      rw [← hlength] at htwo
      cases htwo
    | cons u ts =>
      have hend := hss.eq_of_end (z := "") hlength (by simpa using h)
      rw [hend, String.empty_append]
  · intro hunique
    -- two neighbours that are cut elsewhere would be other texts
    have hcut {before after : List String} {s s' u v : String}
        (hss : ss = before ++ s :: s' :: after)
        (h : u ++ compositeDelimiter ++ v = s ++ compositeDelimiter ++ s') : u = s ∧ v = s' := by
      have heq := hunique (before ++ u :: v :: after) (by simp [hss])
        (by rw [hss, joinWith_congr before after h])
      rw [hss] at heq
      obtain ⟨hu, hrest⟩ := List.cons.inj (List.append_cancel_left heq)
      exact ⟨hu, (List.cons.inj hrest).1⟩
    refine ⟨fun s hs => Bool.eq_false_iff.2 fun hmentions => ?_,
      List.isChain_iff_forall_rel_of_append_cons_cons.2 fun s s' before after hss =>
        ⟨Bool.eq_false_iff.2 fun hends => ?_, Bool.eq_false_iff.2 fun hbegins => ?_⟩⟩
    · obtain ⟨x, y, rfl⟩ := mentions_iff.1 hmentions
      obtain ⟨before, after, hss⟩ := List.append_of_mem hs
      cases after with
      | cons s' after =>
        have hx := (hcut hss (u := x) (v := y ++ compositeDelimiter ++ s') (by
          simp [String.append_assoc])).1
        simp [← String.toList_inj, compositeDelimiter] at hx
      | nil =>
        rcases List.eq_nil_or_concat before with rfl | ⟨before, r, rfl⟩
        · rw [hss] at htwo
          simp at htwo
        · have hlast : ss = before ++ r :: (x ++ compositeDelimiter ++ y) :: [] := by simp [hss]
          have hx := (hcut hlast (u := r ++ compositeDelimiter ++ x) (v := y) (by
            simp [String.append_assoc])).1
          simp [← String.toList_inj, compositeDelimiter] at hx
    · obtain ⟨x, rfl⟩ := endsWith_iff.1 hends
      have hx := (hcut hss (u := x) (v := ":" ++ s') (by
        simp [← String.toList_inj, compositeDelimiter])).1
      simp [← String.toList_inj] at hx
    · obtain ⟨x, rfl⟩ := beginsWith_iff.1 hbegins
      have hx := (hcut hss (u := s ++ ":") (v := x) (by
        simp [← String.toList_inj, compositeDelimiter])).1
      simp [← String.toList_inj] at hx

theorem eq_of_joinWith_eq {ss ts : List String} (hlength : ss.length = ts.length)
    (hss : ∀ s ∈ ss.dropLast, ':' ∉ s.toList) (hts : ∀ t ∈ ts.dropLast, ':' ∉ t.toList)
    (h : joinWith compositeDelimiter ss = joinWith compositeDelimiter ts) : ss = ts := by
  induction ss generalizing ts with
  | nil => exact (List.eq_nil_of_length_eq_zero hlength.symm).symm
  | cons s ss ih =>
    match ss, ts, hlength with
    | [], [t], _ => exact congrArg ([·]) h
    | s' :: ss, t :: t' :: ts, hlength =>
      rw [List.dropLast_cons_cons, List.forall_mem_cons] at hss hts
      rw [joinWith, joinWith] at h
      -- both joined texts are cut at their first colon
      have hcut {u v : String} (hu : ':' ∉ u.toList) :
          cut? ':' (u ++ compositeDelimiter ++ v) = some (u, ":" ++ v) :=
        cut?_eq_some_iff.2 ⟨by simp [← String.toList_inj, compositeDelimiter], hu⟩
      have hpair := hcut hss.1 (v := joinWith compositeDelimiter (s' :: ss))
      rw [h, hcut hts.1] at hpair
      obtain ⟨rfl, hrest⟩ := Prod.mk.inj (Option.some.inj hpair)
      rw [ih (Nat.succ.inj hlength) hss.2 hts.2
        (String.toList_inj.1 (by simpa [← String.toList_inj] using hrest.symm))]

theorem joinWith_concat (separator : String) (ss : List String) (s : String) :
    joinWith separator (ss ++ [s]) = joinWith separator (ss ++ [""]) ++ s := by
  rcases ss.eq_nil_or_concat with rfl | ⟨ss, r, rfl⟩
  · simp
  · rw [joinWith_append separator (by simp) (by simp), joinWith_append separator (by simp) (by simp)]
    simp [String.append_assoc]

end Cabinet.Text
