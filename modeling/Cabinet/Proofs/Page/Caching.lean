import Cabinet.Page.Cache

/-! Reading a cache after a write. Main statement: the value written is read until it expires, and
other keys read as before, whatever has been dropped meanwhile. An entry is held up to its expiry in
whatever order the clock shows its times. -/

namespace Cabinet.Cache

variable {κ α : Type} [DecidableEq κ] {cache : Cache κ α} {now time expires : Int} {key k : κ}
  {value : α}

theorem read?_write_self (now : Int) : (cache.write now key value expires).read? time key =
    if time < expires then some value else none := by
  simp only [read?, write, live, List.filter_cons]
  by_cases hlive : time < expires
  · simp [hlive]
  · have hrest : (((cache.entries.filter fun e => now < e.2.2).filter (·.1 ≠ key)).filter
        fun e => time < e.2.2).find? (·.1 = key) = none := by
      refine List.find?_eq_none.2 fun e he => ?_
      simpa using (List.mem_filter.1 (List.mem_filter.1 he).1).2
    rw [if_neg (by simpa using hlive), if_neg hlive]
    exact congrArg (Option.map (·.2.1)) hrest

theorem read?_write_ne (hnow : now ≤ time) (hk : k ≠ key) :
    (cache.write now key value expires).read? time k = cache.read? time k := by
  have hrest : ((((cache.entries.filter fun e => now < e.2.2).filter (·.1 ≠ key)).filter
      fun e => time < e.2.2).find? (·.1 = k)) =
      ((cache.entries.filter fun e => time < e.2.2).find? (·.1 = k)) := by
    simp only [List.find?_filter]
    congr 1
    funext e
    by_cases he : e.1 = k
    · by_cases hlive : time < e.2.2
      · have hpast : now < e.2.2 := by omega
        simp [he, hk, hlive, hpast]
      · simp [hlive]
    · simp [he]
  simp only [read?, write, live, List.filter_cons]
  congr 1
  split
  · rw [List.find?_cons_of_neg (by simpa using hk.symm)]
    exact hrest
  · exact hrest

theorem mem_write {e : κ × α × Int} (h : e ∈ (cache.write now key value expires).entries) :
    e.1 = key ∨ e ∈ cache.entries := by
  simp only [write, live, List.mem_cons, List.mem_filter] at h
  rcases h with rfl | ⟨⟨he, -⟩, -⟩
  · exact .inl rfl
  · exact .inr he

theorem read?_eq_none (h : ∀ e ∈ cache.entries, e.1 ≠ key) : cache.read? time key = none := by
  simp only [read?, Option.map_eq_none_iff, List.find?_eq_none, decide_eq_true_eq]
  exact fun e he => h e (List.mem_filter.1 he).1

/-- Before `limit` the cache has a value for a key, whatever times the clock shows until then. -/
def Holds (cache : Cache κ α) (key : κ) (value : α) (limit : Int) : Prop :=
  ∃ expires, cache.entries.find? (·.1 = key) = some (key, value, expires) ∧ limit ≤ expires

theorem find?_filter_of_find? {β : Type} {p q : β → Bool} {b : β} {bs : List β}
    (h : bs.find? p = some b) (hb : q b) : (bs.filter q).find? p = some b := by
  obtain ⟨hp, before, after, rfl, hbefore⟩ := List.find?_eq_some_iff_append.1 h
  have hnone : (before.filter q).find? p = none :=
    List.find?_eq_none.2 fun a ha => by simpa using hbefore a (List.mem_filter.1 ha).1
  rw [List.filter_append, List.filter_cons_of_pos hb, List.find?_append, hnone]
  simp [hp]

variable {limit : Int}

theorem Holds.read? (h : cache.Holds key value limit) (htime : time < limit) :
    cache.read? time key = some value := by
  obtain ⟨expires, hfind, hlimit⟩ := h
  have hlive : time < expires := Int.lt_of_lt_of_le htime hlimit
  rw [Cache.read?, live, find?_filter_of_find? hfind (decide_eq_true hlive)]
  rfl

theorem holds_write_self : (cache.write now key value expires).Holds key value expires :=
  ⟨expires, by simp [write], Int.le_refl _⟩

/-- A write drops only entries that have expired. -/
theorem Holds.write (h : cache.Holds key value limit) (hnow : now < limit) (hk : key ≠ k)
    {other : α} : (cache.write now k other expires).Holds key value limit := by
  obtain ⟨expires', hfind, hlimit⟩ := h
  have hlive : now < expires' := Int.lt_of_lt_of_le hnow hlimit
  refine ⟨expires', ?_, hlimit⟩
  rw [Cache.write, List.find?_cons_of_neg (by simpa using hk.symm)]
  exact find?_filter_of_find? (find?_filter_of_find? hfind (decide_eq_true hlive)) (by simpa using hk)

theorem Holds.mem (h : cache.Holds key value limit) : ∃ e ∈ cache.entries, e.1 = key := by
  obtain ⟨expires, hfind, -⟩ := h
  exact ⟨_, List.mem_of_find?_eq_some hfind, rfl⟩

end Cabinet.Cache
