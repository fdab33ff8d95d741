import Cabinet.Proofs.Sorting
import Cabinet.Proofs.Table.Contents

/-! Reading an index partition from end to end. Main statements: all pages together hold the rows
asked for, in order, and they depend on no other row. -/

namespace Cabinet

namespace Position

theorem lt_def {a b : Position} : a < b ↔ a.sort < b.sort ∨ a.sort = b.sort ∧ a.address < b.address :=
  Iff.rfl

def texts (p : Position) : List String := p.sort :: p.address.texts

theorem texts_injective {a b : Position} (h : a.texts = b.texts) : a = b := by
  cases a
  cases b
  obtain ⟨hsort, haddress⟩ := List.cons_eq_cons.1 h
  rw [mk.injEq]
  exact ⟨hsort, Address.texts_injective haddress⟩

theorem lt_iff_texts {a b : Position} : a < b ↔ a.texts < b.texts := by
  simp [lt_def, texts, List.cons_lt_cons_iff, Address.lt_iff_texts]

theorem lt_irrefl (a : Position) : ¬a < a := fun h => List.lt_irrefl _ (lt_iff_texts.1 h)

theorem lt_trans {a b c : Position} (hab : a < b) (hbc : b < c) : a < c :=
  lt_iff_texts.2 (List.lt_trans (lt_iff_texts.1 hab) (lt_iff_texts.1 hbc))

theorem eq_of_not_lt {a b : Position} (h : ¬a < b) (h' : ¬b < a) : a = b := by
  rw [lt_iff_texts, List.not_lt] at h h'
  exact texts_injective (List.le_antisymm h' h)

theorem lt_of_not_lt {a b c : Position} (h : ¬c < a) (hcb : c < b) : a < b := by
  by_cases hac : a < c
  · exact lt_trans hac hcb
  · rw [eq_of_not_lt hac h]
    exact hcb

end Position

namespace Query

theorem before_irrefl (q : Query) (a : Position) : q.before a a = false := by
  cases hd : q.descending <;> simpa [before, hd] using Position.lt_irrefl a

theorem before_trans {q : Query} {a b c : Position} (hab : q.before a b) (hbc : q.before b c) :
    q.before a c := by
  cases hd : q.descending <;> simp only [before, hd, if_true, Bool.false_eq_true, if_false,
    decide_eq_true_eq] at *
  · exact Position.lt_trans hab hbc
  · exact Position.lt_trans hbc hab

theorem before_asymm {q : Query} {a b : Position} (hab : q.before a b) : q.before b a = false := by
  cases h : q.before b a with
  | false => rfl
  | true => exact absurd (before_trans hab h) (by simp [before_irrefl])

theorem before_of_ne {q : Query} {a b : Position} (hne : a ≠ b) (h : q.before b a = false) :
    q.before a b := by
  cases hd : q.descending <;> simp only [before, hd, if_true, Bool.false_eq_true, if_false,
    decide_eq_true_eq, decide_eq_false_iff_not] at *
  · exact Decidable.by_contra fun h' => hne (Position.eq_of_not_lt h' h)
  · exact Decidable.by_contra fun h' => hne (Position.eq_of_not_lt h h')

theorem before_cases {q : Query} {a c : Position} (b : Position) (h : q.before a c) :
    q.before a b ∨ q.before b c := by
  by_cases hab : q.before a b
  · exact .inl hab
  · by_cases hne : b = a
    · exact .inr (hne ▸ h)
    · have hba := before_of_ne hne (by simpa using hab)
      exact .inr (before_trans hba h)

theorem position?_eq_some_iff {q : Query} {row : Row} {p : Position} :
    q.position? row = some p ↔ ∃ entry, row.key.entry q.index = some entry ∧
      entry.partition = q.partition ∧
      (∀ condition ∈ q.condition, condition.holds entry.sort) ∧ ⟨entry.sort, row.address⟩ = p := by
  unfold position?
  cases row.key.entry q.index with
  | none => simp
  | some entry =>
    have hcondition : q.condition.all (·.holds entry.sort) = true ↔
        ∀ condition ∈ q.condition, condition.holds entry.sort := by
      cases q.condition <;> simp
    simp only [hcondition, Option.some.injEq, exists_eq_left', Option.ite_none_right_eq_some,
      and_assoc]

theorem address_of_position? {q : Query} {row : Row} {p : Position}
    (h : q.position? row = some p) : p.address = row.address := by
  obtain ⟨entry, -, -, -, rfl⟩ := position?_eq_some_iff.1 h
  rfl

theorem mem_ordered {q : Query} {rows : Rows} {x : Position × Row} :
    x ∈ q.ordered rows ↔ x.2 ∈ rows.toList ∧ q.position? x.2 = some x.1 := by
  simp only [ordered, mem_sortBy, List.mem_filterMap, Option.map_eq_some_iff]
  constructor
  · rintro ⟨row, hrow, p, hp, rfl⟩
    exact ⟨hrow, hp⟩
  · rintro ⟨hrow, hp⟩
    exact ⟨x.2, hrow, x.1, hp, rfl⟩

theorem ordered_pairwise (q : Query) (rows : Rows) :
    (q.ordered rows).Pairwise fun a b => q.before a.1 b.1 := by
  have sorted : (q.ordered rows).Pairwise fun a b => q.before b.1 a.1 = false :=
    pairwise_sortBy (fun _ _ => before_asymm) (fun _ b _ => before_cases b.1) _
  have distinct : (q.ordered rows).Pairwise fun a b => a.1 ≠ b.1 := by
    refine ((sortBy_perm _ _).pairwise_iff fun h => Ne.symm h).2 ?_
    refine List.Pairwise.filterMap _ (fun a b hab x hx y hy hxy => ?_) rows.increasing
    obtain ⟨p, hp, rfl⟩ := Option.map_eq_some_iff.1 hx
    obtain ⟨p', hp', rfl⟩ := Option.map_eq_some_iff.1 hy
    have hpp : p = p' := hxy
    refine Address.ne_of_lt hab ?_
    rw [← address_of_position? hp, ← address_of_position? hp', hpp]
  exact (sorted.and distinct).imp fun h => before_of_ne h.2 h.1

theorem ordered_congr {q : Query} {a b : Rows}
    (h : ∀ row, (q.position? row).isSome → (row ∈ a.toList ↔ row ∈ b.toList)) :
    q.ordered a = q.ordered b := by
  have : Std.Asymm fun x y : Position × Row => (q.before x.1 y.1 : Prop) :=
    ⟨fun _ _ hxy => by simp [before_asymm hxy]⟩
  refine (q.ordered_pairwise a).eq_of_mem_iff (q.ordered_pairwise b) fun x => ?_
  rw [mem_ordered, mem_ordered]
  exact and_congr_left fun hx => h x.2 (by simp [hx])

theorem pastStart_of_before {q : Query} {a b : Position} (h : q.pastStart a)
    (hab : q.before a b) : q.pastStart b := by
  unfold pastStart at *
  cases hs : q.start with
  | none => rfl
  | some key =>
    rw [hs] at h
    exact before_trans h hab

theorem remaining_eq_filter (q : Query) (rows : Rows) :
    q.remaining rows = (q.ordered rows).filter fun a => q.pastStart a.1 := by
  have key : ∀ as : List (Position × Row), as.Pairwise (fun a b => q.before a.1 b.1) →
      (as.dropWhile fun a => !q.pastStart a.1) = as.filter fun a => q.pastStart a.1 := by
    intro as has
    induction as with
    | nil => rfl
    | cons a as ih =>
      obtain ⟨ha, has⟩ := List.pairwise_cons.1 has
      cases hp : q.pastStart a.1 with
      | false => simp [hp, ih has]
      | true =>
        have hall : ∀ b ∈ as, q.pastStart b.1 := fun b hb => pastStart_of_before hp (ha b hb)
        simpa [hp] using (List.filter_eq_self.2 hall).symm
  exact key _ (q.ordered_pairwise rows)

theorem remaining_of_start_none {q : Query} (h : q.start = none) (rows : Rows) :
    q.remaining rows = q.ordered rows := by
  rw [remaining_eq_filter]
  exact List.filter_eq_self.2 fun _ _ => by simp [pastStart, h]

theorem position_pageKey {q : Query} {row : Row} {p : Position} (h : q.position? row = some p) :
    (q.pageKey row).position = p := by
  obtain ⟨entry, he, -, -, rfl⟩ := position?_eq_some_iff.1 h
  unfold PageKey.position pageKey
  split
  · rename_i hq
    rw [hq] at he
    cases he
    rfl
  · simp [he]

theorem remaining_after {q : Query} {rows : Rows} {front back : List (Position × Row)}
    {x : Position × Row} (h : q.remaining rows = front ++ x :: back) :
    remaining { q with start := some (q.pageKey x.2) } rows = back := by
  have hx : x ∈ q.remaining rows := by simp [h]
  rw [remaining_eq_filter] at h hx
  obtain ⟨hmem, hpast⟩ := List.mem_filter.1 hx
  have hpos := position_pageKey (mem_ordered.1 hmem).2
  have hsorted : (front ++ x :: back).Pairwise fun a b => q.before a.1 b.1 :=
    h ▸ (q.ordered_pairwise rows).filter _
  obtain ⟨-, htail, hfront⟩ := List.pairwise_append.1 hsorted
  obtain ⟨hback, -⟩ := List.pairwise_cons.1 htail
  have narrow : remaining { q with start := some (q.pageKey x.2) } rows =
      ((q.ordered rows).filter fun a => q.pastStart a.1).filter fun a => q.before x.1 a.1 := by
    rw [remaining_eq_filter, List.filter_filter]
    apply List.filter_congr
    intro a _
    show q.before (q.pageKey x.2).position a.1 = _
    rw [hpos]
    cases hxa : q.before x.1 a.1 with
    | false => rfl
    | true => simp [pastStart_of_before hpast hxa]
  rw [narrow, h, List.filter_append, List.filter_cons]
  have hnone : front.filter (fun a => q.before x.1 a.1) = [] := by
    apply List.filter_eq_nil_iff.2
    intro a ha
    simp [before_asymm (hfront a ha x List.mem_cons_self)]
  have hall : back.filter (fun a => q.before x.1 a.1) = back := List.filter_eq_self.2 hback
  simp [hnone, hall, before_irrefl]

theorem page_of_lt {q : Query} {rows : Rows} (h : max q.limit 1 < (q.remaining rows).length) :
    ∃ front x back, q.remaining rows = front ++ x :: back ∧
      q.page rows = { rows := front.map (·.2) ++ [x.2], last := some (q.pageKey x.2) } := by
  obtain ⟨front, x, back, hsplit, hlen⟩ : ∃ front x back,
      q.remaining rows = front ++ x :: back ∧ front.length + 1 = max q.limit 1 := by
    refine ⟨(q.remaining rows).take (max q.limit 1 - 1),
      (q.remaining rows)[max q.limit 1 - 1], (q.remaining rows).drop (max q.limit 1), ?_, ?_⟩
    · have := List.drop_eq_getElem_cons (l := q.remaining rows) (i := max q.limit 1 - 1) (by omega)
      rw [show max q.limit 1 - 1 + 1 = max q.limit 1 by omega] at this
      rw [← this, List.take_append_drop]
    · rw [List.length_take]
      omega
  refine ⟨front, x, back, hsplit, ?_⟩
  have hshown : ((front ++ x :: back).map (·.2)).take (max q.limit 1) =
      front.map (·.2) ++ [x.2] := by
    rw [List.map_append, List.map_cons, List.append_cons]
    exact List.take_left' (by simp [hlen])
  rw [hsplit] at h
  simp only [page, hsplit, hshown]
  rw [if_pos (by simpa using h)]
  simp

theorem page_of_le {q : Query} {rows : Rows} (h : (q.remaining rows).length ≤ max q.limit 1) :
    q.page rows = { rows := (q.remaining rows).map (·.2) } := by
  have hfound : ((q.remaining rows).map (·.2)).length ≤ max q.limit 1 := by
    rwa [List.length_map]
  rw [page, List.take_of_length_le hfound, if_neg (Nat.not_lt.2 hfound)]

/-- Whether a place is on a page: past its start and not past its end. -/
def onPage (q : Query) (rows : Rows) (p : Position) : Bool :=
  q.pastStart p && (q.page rows).last.all fun key => !q.before key.position p

theorem page_rows (q : Query) (rows : Rows) : (q.page rows).rows =
    ((q.ordered rows).filter fun a => q.onPage rows a.1).map (·.2) := by
  have hfilter : (q.ordered rows).filter (fun a => q.onPage rows a.1) = (q.remaining rows).filter
      fun a => (q.page rows).last.all fun key => !q.before key.position a.1 := by
    rw [remaining_eq_filter, List.filter_filter]
    exact List.filter_congr fun a _ => Bool.and_comm _ _
  rw [hfilter]
  rcases Nat.lt_or_ge (max q.limit 1) (q.remaining rows).length with hlt | hle
  · obtain ⟨front, x, back, hsplit, hpage⟩ := page_of_lt hlt
    have hx : x ∈ q.remaining rows := by simp [hsplit]
    rw [remaining_eq_filter] at hx
    have hposition := position_pageKey (mem_ordered.1 (List.mem_filter.1 hx).1).2
    have hsorted : (front ++ x :: back).Pairwise fun a b => q.before a.1 b.1 := by
      rw [← hsplit, remaining_eq_filter]
      exact (q.ordered_pairwise rows).filter _
    obtain ⟨-, htail, hfront⟩ := List.pairwise_append.1 hsorted
    obtain ⟨hback, -⟩ := List.pairwise_cons.1 htail
    have hkept : front.filter (fun a => !q.before x.1 a.1) = front := by
      refine List.filter_eq_self.2 fun a ha => ?_
      simp [before_asymm (hfront a ha x List.mem_cons_self)]
    have hdropped : back.filter (fun a => !q.before x.1 a.1) = [] :=
      List.filter_eq_nil_iff.2 fun a ha => by simp [hback a ha]
    simp [hpage, hsplit, hposition, List.filter_append, before_irrefl, hkept, hdropped]
  · rw [page_of_le hle]
    exact congrArg _ (List.filter_eq_self.2 fun _ _ => rfl).symm

theorem pastStart_last {q : Query} {rows : Rows} {key : PageKey} (h : (q.page rows).last = some key) :
    q.pastStart key.position := by
  rcases Nat.lt_or_ge (max q.limit 1) (q.remaining rows).length with hlt | hle
  · obtain ⟨front, x, back, hsplit, hpage⟩ := page_of_lt hlt
    have hx : x ∈ q.remaining rows := by simp [hsplit]
    rw [remaining_eq_filter, List.mem_filter] at hx
    rw [hpage] at h
    rw [← Option.some.inj h, position_pageKey (mem_ordered.1 hx.1).2]
    exact hx.2
  · rw [page_of_le hle] at h
    cases h

theorem drainFrom_eq {q : Query} {rows : Rows} {pages : Nat}
    (h : (q.remaining rows).length < pages) :
    drainFrom rows pages q = (q.remaining rows).map (·.2) := by
  induction pages generalizing q with
  | zero => omega
  | succ pages ih =>
    rcases Nat.lt_or_ge (max q.limit 1) (q.remaining rows).length with hlt | hle
    · obtain ⟨front, x, back, hsplit, hpage⟩ := page_of_lt hlt
      have hnext := remaining_after hsplit
      have hlength := congrArg List.length hsplit
      simp only [List.length_append, List.length_cons] at hlength
      simp only [drainFrom, hpage]
      rw [ih (by rw [hnext]; omega), hnext, hsplit]
      simp
    · simp only [drainFrom, page_of_le hle]

theorem length_ordered_le (q : Query) (rows : Rows) : (q.ordered rows).length ≤ rows.size := by
  rw [ordered, length_sortBy]
  exact List.length_filterMap_le _ _

/-- All pages together hold what remains from the start on. -/
theorem drain_eq (q : Query) (rows : Rows) : q.drain rows = (q.remaining rows).map (·.2) := by
  apply drainFrom_eq
  rw [remaining_eq_filter]
  have := List.length_filter_le (fun a => q.pastStart a.1) (q.ordered rows)
  have := q.length_ordered_le rows
  omega

end Query

namespace Table

variable {t t' : Table} {q : Query} {row : Row}

theorem mem_queryAll (h : q.start = none) :
    row ∈ t.queryAll q ↔ row ∈ t ∧ (q.position? row).isSome := by
  simp only [queryAll, Query.drain_eq, Query.remaining_of_start_none h, List.mem_map,
    Query.mem_ordered]
  constructor
  · rintro ⟨x, ⟨hx, hp⟩, rfl⟩
    exact ⟨hx, by simp [hp]⟩
  · rintro ⟨hrow, hp⟩
    obtain ⟨p, hp⟩ := Option.isSome_iff_exists.1 hp
    exact ⟨(p, row), ⟨hrow, hp⟩, rfl⟩

theorem query_congr (h : ∀ row, (q.position? row).isSome → (row ∈ t ↔ row ∈ t')) :
    t.query q = t'.query q := by
  have hremaining : q.remaining t.rows = q.remaining t'.rows := by
    rw [Query.remaining, Query.remaining, Query.ordered_congr h]
  rw [query, query, Query.page, Query.page, hremaining]

theorem queryAll_congr (h : ∀ row, (q.position? row).isSome → (row ∈ t ↔ row ∈ t')) :
    t.queryAll q = t'.queryAll q := by
  rw [queryAll, queryAll, Query.drain_eq, Query.drain_eq, Query.remaining, Query.remaining,
    Query.ordered_congr h]

theorem queryAll_nodup (h : q.start = none) : (t.queryAll q).Nodup := by
  simp only [queryAll, Query.drain_eq, Query.remaining_of_start_none h]
  rw [List.Nodup, List.pairwise_map]
  refine (q.ordered_pairwise t.rows).imp_of_mem fun {a b} ha hb hab e => ?_
  have := (Query.mem_ordered.1 ha).2
  rw [e, (Query.mem_ordered.1 hb).2] at this
  rw [Option.some.inj this, Query.before_irrefl] at hab
  cases hab

theorem isSome_position? : (q.position? row).isSome ↔ ∃ entry, row.key.entry q.index = some entry ∧
    entry.partition = q.partition ∧ q.condition.all (·.holds entry.sort) := by
  rw [Option.isSome_iff_exists]
  simp only [Query.position?_eq_some_iff]
  rw [exists_comm]
  cases q.condition <;> simp

theorem mem_partitionRows {partition : String} :
    row ∈ t.partitionRows partition ↔ row ∈ t ∧ row.address.partition = partition := by
  rw [partitionRows, mem_queryAll rfl, isSome_position?]
  simp [RowKey.entry, Row.address]

theorem mem_rowsFrom {partition front : String} : row ∈ t.rowsFrom partition front ↔
    row ∈ t ∧ row.address.partition = partition ∧ Text.beginsWith front row.address.sort := by
  rw [rowsFrom, mem_queryAll rfl, isSome_position?]
  simp [RowKey.entry, Row.address, Condition.holds]

theorem query_rows_eq_nil_iff (hstart : q.start = none) :
    (t.query q).rows = [] ↔ ∀ r ∈ t, q.position? r = none := by
  have hordered : (t.query q).rows = [] ↔ q.ordered t.rows = [] := by
    rw [query, Query.page, Query.remaining_of_start_none hstart]
    simp
  rw [hordered, List.eq_nil_iff_forall_not_mem]
  constructor
  · intro hnone r hr
    refine Option.eq_none_iff_forall_ne_some.2 fun p hp => ?_
    exact hnone (p, r) (Query.mem_ordered.2 ⟨hr, hp⟩)
  · intro hnone x hx
    obtain ⟨hr, hp⟩ := Query.mem_ordered.1 hx
    rw [hnone x.2 hr] at hp
    cases hp

theorem queryAll_pairwise (hindex : q.index = .primary) (hstart : q.start = none)
    (hdescending : q.descending = false) :
    (t.queryAll q).Pairwise fun a b => a.address.sort < b.address.sort := by
  have hrows : t.queryAll q = (q.ordered t.rows).map (·.2) := by
    rw [queryAll, Query.drain_eq, Query.remaining_of_start_none hstart]
  rw [hrows, List.pairwise_map]
  refine (q.ordered_pairwise t.rows).imp_of_mem fun {x y} hx hy hbefore => ?_
  have hplace {x : Position × Row} (hx : x ∈ q.ordered t.rows) :
      x.1 = ⟨x.2.address.sort, x.2.address⟩ ∧ x.2.address.partition = q.partition := by
    obtain ⟨entry, hentry, hpartition, -, hp⟩ :=
      Query.position?_eq_some_iff.1 (Query.mem_ordered.1 hx).2
    rw [hindex] at hentry
    obtain rfl := Option.some.inj hentry
    exact ⟨hp.symm, hpartition⟩
  obtain ⟨hx, hp⟩ := hplace hx
  obtain ⟨hy, hp'⟩ := hplace hy
  have hlt : x.1 < y.1 := by simpa [Query.before, hdescending] using hbefore
  rw [hx, hy, Position.lt_def] at hlt
  rcases hlt with hlt | ⟨hsort, hlt⟩
  · exact hlt
  · -- rows of one partition with one sort key are one row
    rcases Address.lt_def.1 hlt with hlt | ⟨-, hlt⟩
    · rw [hp, hp'] at hlt
      exact absurd hlt (String.lt_irrefl _)
    · exact hlt

theorem rowsFrom_pairwise (t : Table) (partition front : String) :
    (t.rowsFrom partition front).Pairwise fun a b => a.address.sort < b.address.sort :=
  queryAll_pairwise rfl rfl rfl

end Table

end Cabinet
