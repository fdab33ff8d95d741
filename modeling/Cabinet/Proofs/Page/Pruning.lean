import Cabinet.Page.Clock
import Cabinet.Proofs.Page.Caching

/-! The cache beside one that never drops anything. Main statement: as long as the clock is not set
back, a read gives what was written last under its key, or nothing once the life of that has ended;
what the writes of other keys have dropped meanwhile makes no difference. -/

namespace Cabinet

namespace Clock

def longestLife : Nat := 9223372036854775807000000

def expiry (start : Int) (life : Nat) : Int := min (start + min life longestLife) latest

variable {start : Int}

/-- The longest life leads past the last instant from wherever it starts, so that cutting a life does
not bring its end forward. -/
theorem expiry_eq (h : earliest ≤ start) (life : Nat) :
    expiry start life = min (start + life) latest := by
  have hlongest : latest ≤ earliest + longestLife := by decide
  unfold expiry
  omega

theorem earliest_le_now (c : Clock) : earliest ≤ c.now := by
  unfold now
  dsimp only
  split
  · rename_i h
    exact h.1
  · exact Int.le_refl _

/-- A life that is counted in milliseconds, as that of a token is, ends where the same life in
nanoseconds does. -/
theorem after_now_eq_expiry (c : Clock) (millis : Nat) :
    after c.now millis = expiry c.now (millis * 1000000) := by
  rw [expiry_eq c.earliest_le_now, after, Int.natCast_mul]
  rfl

end Clock

namespace Cache

variable {κ α : Type}

/-- What is asked of a cache, and when. A life is in nanoseconds. -/
inductive Access (κ α : Type) where
  | write (time : Int) (key : κ) (value : α) (life : Nat)
  | read (time : Int) (key : κ)

def Access.time : Access κ α → Int
  | write time _ _ _ | read time _ => time

/-- Accesses at readings of a clock that is not set back, from a time on. -/
structure InOrder (now : Int) (accesses : List (Access κ α)) : Prop where
  covered : ∀ a ∈ accesses, Clock.earliest ≤ a.time
  later : ∀ a ∈ accesses, now ≤ a.time
  sorted : accesses.Pairwise fun a b => a.time ≤ b.time

theorem InOrder.tail {now : Int} {a : Access κ α} {accesses : List (Access κ α)}
    (h : InOrder now (a :: accesses)) : InOrder a.time accesses where
  covered := (List.forall_mem_cons.1 h.covered).2
  later := (List.pairwise_cons.1 h.sorted).1
  sorted := (List.pairwise_cons.1 h.sorted).2

variable [DecidableEq κ]

def Access.wrote? (key : κ) : Access κ α → Option (α × Int)
  | write time k value life =>
    if k = key then some (value, min (time + life) Clock.latest) else none
  | read _ _ => none

def run (cache : Cache κ α) : List (Access κ α) → Cache κ α
  | [] => cache
  | .write time key value life :: rest =>
    (cache.write time key value (Clock.expiry time life)).run rest
  | .read _ _ :: rest => cache.run rest

def answers (cache : Cache κ α) : List (Access κ α) → List (Option α)
  | [] => []
  | .write time key value life :: rest =>
    (cache.write time key value (Clock.expiry time life)).answers rest
  | .read time key :: rest => cache.read? time key :: cache.answers rest

/-- What is found where all accesses so far are kept, the latest first: what the first of them that
writes under the key has written, unless its life has ended. -/
def recollect? (past : List (Access κ α)) (now : Int) (key : κ) : Option α :=
  ((past.findSome? (Access.wrote? key)).filter (now < ·.2)).map (·.1)

def recollections (past : List (Access κ α)) : List (Access κ α) → List (Option α)
  | [] => []
  | .write time key value life :: rest => recollections (.write time key value life :: past) rest
  | .read time key :: rest => recollect? past time key :: recollections (.read time key :: past) rest

/-- The last of some accesses that writes under a key writes a value whose life lasts at a time. The
end of a life is cut to the last instant. -/
def Current (accesses : List (Access κ α)) (key : κ) (value : α) (now : Int) : Prop :=
  ∃ (early late : List (Access κ α)) (time : Int) (life : Nat),
    accesses = early ++ .write time key value life :: late ∧
      (∀ t v l, .write t key v l ∉ late) ∧ now < min (time + life) Clock.latest

variable {cache : Cache κ α} {past accesses : List (Access κ α)} {now time : Int} {key k : κ}
  {value : α} {life : Nat}

theorem recollect?_write_self : recollect? (.write time key value life :: past) now key =
    if now < min (time + life) Clock.latest then some value else none := by
  simp only [recollect?, List.findSome?_cons, Access.wrote?, if_true, Option.filter_some,
    decide_eq_true_eq]
  split <;> rfl

theorem recollect?_write_ne (h : k ≠ key) :
    recollect? (.write time key value life :: past) now k = recollect? past now k := by
  simp only [recollect?, List.findSome?_cons, Access.wrote?, if_neg h.symm]

theorem wrote?_eq_some_iff {a : Access κ α} {ends : Int} : a.wrote? key = some (value, ends) ↔
    ∃ time life, a = .write time key value life ∧ min (time + life) Clock.latest = ends := by
  cases a with
  | write time k v life =>
    simp only [Access.wrote?, Option.ite_none_right_eq_some, Option.some.injEq, Prod.mk.injEq,
      Access.write.injEq]
    constructor
    · rintro ⟨rfl, rfl, rfl⟩
      exact ⟨time, life, ⟨rfl, rfl, rfl, rfl⟩, rfl⟩
    · rintro ⟨-, -, ⟨rfl, rfl, rfl, rfl⟩, rfl⟩
      exact ⟨rfl, rfl, rfl⟩
  | read time k => simp [Access.wrote?]

theorem wrote?_eq_none_iff {a : Access κ α} :
    a.wrote? key = none ↔ ∀ time value life, a ≠ .write time key value life := by
  simp only [Option.eq_none_iff_forall_ne_some, Prod.forall, ne_eq, wrote?_eq_some_iff]
  grind

theorem recollect?_reverse_eq_some_iff :
    recollect? accesses.reverse now key = some value ↔ Current accesses key value now := by
  have hlate {late : List (Access κ α)} : (∀ a ∈ late.reverse, a.wrote? key = none) ↔
      ∀ t v l, .write t key v l ∉ late := by
    simp only [wrote?_eq_none_iff, List.mem_reverse]
    exact ⟨fun h t v l hmem => h _ hmem t v l rfl, fun h a ha t v l he => h t v l (he ▸ ha)⟩
  simp only [recollect?, Option.map_eq_some_iff, Option.filter_eq_some_iff, decide_eq_true_eq,
    List.findSome?_eq_some_iff]
  constructor
  · rintro ⟨⟨value, ends⟩, ⟨⟨late, a, early, hpast, hwrote, hnone⟩, hnow⟩, rfl⟩
    obtain ⟨time, life, rfl, rfl⟩ := wrote?_eq_some_iff.1 hwrote
    refine ⟨early.reverse, late.reverse, time, life, ?_, hlate.1 (by simpa using hnone), hnow⟩
    simpa using congrArg List.reverse hpast
  · rintro ⟨early, late, time, life, rfl, hnone, hnow⟩
    have hwrote : (Access.write time key value life).wrote? key =
        some (value, min (time + life) Clock.latest) := if_pos rfl
    exact ⟨_, ⟨⟨late.reverse, _, early.reverse, by simp, hwrote, hlate.2 hnone⟩, hnow⟩, rfl⟩

/-- From a time on the cache reads as if all accesses so far were kept. -/
def ReadsAs (cache : Cache κ α) (past : List (Access κ α)) (now : Int) : Prop :=
  ∀ time key, now ≤ time → cache.read? time key = recollect? past time key

theorem readsAs_empty : ({} : Cache κ α).ReadsAs [] now := fun _ _ _ => rfl

theorem ReadsAs.mono (h : cache.ReadsAs past now) (hnow : now ≤ time) : cache.ReadsAs past time :=
  fun t k ht => h t k (Int.le_trans hnow ht)

theorem ReadsAs.read (h : cache.ReadsAs past now) : cache.ReadsAs (.read time k :: past) now := h

/-- A write drops entries that have expired by its time. As the clock is not set back, no later read
would have found them. -/
theorem ReadsAs.write (h : cache.ReadsAs past now) (hnow : now ≤ time)
    (hcovered : Clock.earliest ≤ time) :
    (cache.write time key value (Clock.expiry time life)).ReadsAs
      (.write time key value life :: past) time := by
  intro t k ht
  by_cases hk : k = key
  · subst hk
    rw [read?_write_self, recollect?_write_self, Clock.expiry_eq hcovered]
  · rw [read?_write_ne ht hk, recollect?_write_ne hk, h t k (Int.le_trans hnow ht)]

theorem ReadsAs.run (h : cache.ReadsAs past now) (horder : InOrder now accesses)
    (hnow : now ≤ time) (hlast : ∀ a ∈ accesses, a.time ≤ time) :
    (cache.run accesses).ReadsAs (accesses.reverse ++ past) time := by
  -- The time from which on the two agree moves with the accesses: a write spoils earlier reads.
  induction accesses generalizing cache past now with
  | nil => exact h.mono hnow
  | cons a rest ih =>
    obtain ⟨hcovered, -⟩ := List.forall_mem_cons.1 horder.covered
    obtain ⟨hlater, -⟩ := List.forall_mem_cons.1 horder.later
    obtain ⟨ha, hrest⟩ := List.forall_mem_cons.1 hlast
    rw [List.reverse_cons, List.append_assoc, List.singleton_append]
    cases a with
    | write t k v l => exact ih (h.write hlater hcovered) horder.tail ha hrest
    | read t k => exact ih (h.mono hlater).read horder.tail ha hrest

theorem ReadsAs.answers_eq (h : cache.ReadsAs past now) (horder : InOrder now accesses) :
    cache.answers accesses = recollections past accesses := by
  induction accesses generalizing cache past now with
  | nil => rfl
  | cons a rest ih =>
    obtain ⟨hcovered, -⟩ := List.forall_mem_cons.1 horder.covered
    obtain ⟨hlater, -⟩ := List.forall_mem_cons.1 horder.later
    cases a with
    | write t k v l => exact ih (h.write hlater hcovered) horder.tail
    | read t k =>
      rw [answers, recollections, h t k hlater, ih (h.mono hlater).read horder.tail]

/-- Along accesses at readings of a clock that is not set back, the cache answers as one that never
drops anything: a read gives what was written last under its key as long as the life of that lasts, and
nothing otherwise. -/
theorem answers_as_if_kept (hclock : accesses.Pairwise fun a b => a.time ≤ b.time)
    (hcovered : ∀ a ∈ accesses, Clock.earliest ≤ a.time) :
    ({} : Cache κ α).answers accesses = recollections [] accesses ∧
      ∀ before now key after, accesses = before ++ .read now key :: after → ∀ value,
        (({} : Cache κ α).run before).read? now key = some value ↔
          Current before key value now := by
  have horder : InOrder Clock.earliest accesses := ⟨hcovered, hcovered, hclock⟩
  refine ⟨readsAs_empty.answers_eq horder, ?_⟩
  rintro before now key after rfl value
  obtain ⟨hbefore, -, hread⟩ := List.pairwise_append.1 hclock
  have hfront : InOrder Clock.earliest before :=
    ⟨fun a ha => hcovered a (List.mem_append_left _ ha),
      fun a ha => hcovered a (List.mem_append_left _ ha), hbefore⟩
  have hnow : Clock.earliest ≤ now := hcovered (.read now key) (by simp)
  have hlast : ∀ a ∈ before, a.time ≤ now := fun a ha => hread a ha _ List.mem_cons_self
  have hreads := readsAs_empty.run hfront hnow hlast
  rw [hreads now key (Int.le_refl now), List.append_nil, recollect?_reverse_eq_some_iff]

def writtenAgain : List (Access String String) :=
  [.write 0 "a" "first" 10, .write 0 "b" "kept" 9999999999999999999999999, .write 5 "a" "second" 2,
    .read 6 "a", .write 7 "c" "third" 1, .read 7 "a", .read 8 "c", .read 1000 "b"]

theorem writtenAgain_answers_as_if_kept :
    (writtenAgain.Pairwise fun a b => a.time ≤ b.time) ∧
      (∀ a ∈ writtenAgain, Clock.earliest ≤ a.time) ∧
      ({} : Cache String String).answers writtenAgain = recollections [] writtenAgain ∧
      recollections [] writtenAgain = [some "second", none, none, some "kept"] ∧
      ∀ before now key after, writtenAgain = before ++ .read now key :: after → ∀ value,
        (({} : Cache String String).run before).read? now key = some value ↔
          Current before key value now := by
  have hclock : writtenAgain.Pairwise fun a b => a.time ≤ b.time := by
    simp [writtenAgain, Access.time]
  have hcovered : ∀ a ∈ writtenAgain, Clock.earliest ≤ a.time := by
    simp only [writtenAgain, List.forall_mem_cons, Access.time]
    decide
  obtain ⟨hanswers, hreads⟩ := answers_as_if_kept hclock hcovered
  exact ⟨hclock, hcovered, hanswers, by decide, hreads⟩

end Cache

end Cabinet
