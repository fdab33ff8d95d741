/-! Where a row stands: a partition and a place in it. -/

namespace Cabinet

structure Address where
  partition : String
  sort : String
  deriving DecidableEq

namespace Address

instance : LT Address where
  lt a b := a.partition < b.partition ∨ a.partition = b.partition ∧ a.sort < b.sort

instance (a b : Address) : Decidable (a < b) :=
  inferInstanceAs (Decidable (_ ∨ _ ∧ _))

theorem lt_def {a b : Address} :
    a < b ↔ a.partition < b.partition ∨ a.partition = b.partition ∧ a.sort < b.sort :=
  Iff.rfl

def texts (a : Address) : List String := [a.partition, a.sort]

theorem texts_injective {a b : Address} (h : a.texts = b.texts) : a = b := by
  cases a
  cases b
  simpa [texts] using h

theorem lt_iff_texts {a b : Address} : a < b ↔ a.texts < b.texts := by
  simp [lt_def, texts, List.cons_lt_cons_iff]

theorem lt_irrefl (a : Address) : ¬a < a := fun h => List.lt_irrefl _ (lt_iff_texts.1 h)

theorem lt_trans {a b c : Address} (hab : a < b) (hbc : b < c) : a < c :=
  lt_iff_texts.2 (List.lt_trans (lt_iff_texts.1 hab) (lt_iff_texts.1 hbc))

theorem eq_of_not_lt {a b : Address} (h : ¬a < b) (h' : ¬b < a) : a = b := by
  rw [lt_iff_texts, List.not_lt] at h h'
  exact texts_injective (List.le_antisymm h' h)

theorem lt_asymm {a b : Address} (h : a < b) : ¬b < a := fun h' => lt_irrefl a (lt_trans h h')

theorem ne_of_lt {a b : Address} (h : a < b) : a ≠ b := fun e => lt_irrefl b (e ▸ h)

end Address

end Cabinet
