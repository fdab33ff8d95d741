import Cabinet.Store.Operation
import Mathlib.Logic.Equiv.Basic

/-! Page tokens under other names. Main statement: what names tokens is the same under two renamings
that agree on the tokens it names. -/

namespace Cabinet

open Equiv (Perm)

def TokenId.rename (ρ : Perm Nat) : TokenId → TokenId
  | .issued n => .issued (ρ n)
  | .named name => .named name

/-- What names page tokens. -/
class NamesTokens (α : Type) where
  tokens : α → List TokenId
  rename : Perm Nat → α → α
  rename_congr {ρ ρ' : Perm Nat} {a : α}
    (h : ∀ id ∈ tokens a, id.rename ρ = id.rename ρ') : rename ρ a = rename ρ' a

open NamesTokens (tokens rename)

instance : NamesTokens TokenId where
  tokens id := [id]
  rename := TokenId.rename
  rename_congr h := h _ (List.mem_singleton_self _)

instance {α : Type} [NamesTokens α] : NamesTokens (Option α) where
  tokens o := o.toList.flatMap tokens
  rename ρ o := o.map (rename ρ)
  rename_congr {ρ ρ' o} h := by
    cases o with
    | none => rfl
    | some a => exact congrArg some (NamesTokens.rename_congr fun id hid => h id (by simpa using hid))

instance {α β : Type} [NamesTokens α] [NamesTokens β] : NamesTokens (α × β) where
  tokens x := tokens x.1 ++ tokens x.2
  rename ρ x := (rename ρ x.1, rename ρ x.2)
  rename_congr h := by
    rw [NamesTokens.rename_congr fun id hid => h id (List.mem_append_left _ hid),
      NamesTokens.rename_congr fun id hid => h id (List.mem_append_right _ hid)]

instance : NamesTokens Token where
  tokens token := tokens (token.id, token.previous)
  rename ρ token := { token with
    id := rename ρ token.id
    previous := rename ρ token.previous }
  rename_congr {ρ ρ' token} h := by
    obtain ⟨hid, hprevious⟩ := Prod.mk.inj (NamesTokens.rename_congr h)
    exact congrArg₂ (fun id previous => { token with id, previous }) hid hprevious

instance : NamesTokens Cursor where
  tokens cursor := tokens cursor.token
  rename ρ cursor := { cursor with token := rename ρ cursor.token }
  rename_congr h := by rw [NamesTokens.rename_congr h]

instance : NamesTokens PageRequest where
  tokens request := tokens (request.next, request.previous)
  rename ρ request := { request with
    next := rename ρ request.next
    previous := rename ρ request.previous }
  rename_congr {ρ ρ' request} h := by
    obtain ⟨hnext, hprevious⟩ := Prod.mk.inj (NamesTokens.rename_congr h)
    exact congrArg₂ (fun next previous => { request with next, previous }) hnext hprevious

instance {α : Type} : NamesTokens (Page α) where
  tokens page := tokens (page.next, page.previous)
  rename ρ page := { page with
    next := rename ρ page.next
    previous := rename ρ page.previous }
  rename_congr {ρ ρ' page} h := by
    obtain ⟨hnext, hprevious⟩ := Prod.mk.inj (NamesTokens.rename_congr h)
    exact congrArg₂ (fun next previous => { page with next, previous }) hnext hprevious

def Operation.page? : Operation → Option PageRequest
  | .listDocumentsByDate _ page | .listDeletedDocuments _ page | .searchTags _ _ page
  | .search _ page | .listFolder _ page => some page
  | _ => none

def Operation.withPage (page : PageRequest) : Operation → Operation
  | .listDocumentsByDate day _ => .listDocumentsByDate day page
  | .listDeletedDocuments day _ => .listDeletedDocuments day page
  | .searchTags key value _ => .searchTags key value page
  | .search criteria _ => .search criteria page
  | .listFolder path _ => .listFolder path page
  | op => op

instance : NamesTokens Operation where
  tokens op := tokens op.page?
  rename ρ op := (op.page?.map fun page => op.withPage (rename ρ page)).getD op
  rename_congr {ρ ρ' op} h := by
    cases hpage : op.page? with
    | none => rfl
    | some page =>
      rw [hpage] at h
      have hrename : some (rename ρ page) = some (rename ρ' page) := NamesTokens.rename_congr h
      simp only [Option.map_some, Option.some.inj hrename]

instance : NamesTokens Request where
  tokens r := tokens r.operation
  rename ρ r := { r with operation := rename ρ r.operation }
  rename_congr h := by rw [NamesTokens.rename_congr h]

instance : NamesTokens Answer where
  tokens
    | .documentPage page => tokens page
    | .tagPage page => tokens page
    | .nodePage page => tokens page
    | _ => []
  rename ρ
    | .documentPage page => .documentPage (rename ρ page)
    | .tagPage page => .tagPage (rename ρ page)
    | .nodePage page => .nodePage (rename ρ page)
    | answer => answer
  rename_congr {ρ ρ' answer} h := by
    cases answer with
    | documentPage page => exact congrArg Answer.documentPage (NamesTokens.rename_congr h)
    | tagPage page => exact congrArg Answer.tagPage (NamesTokens.rename_congr h)
    | nodePage page => exact congrArg Answer.nodePage (NamesTokens.rename_congr h)
    | _ => rfl

instance {α : Type} [NamesTokens α] : NamesTokens (Except Error α) where
  tokens
    | .ok a => tokens a
    | .error _ => []
  rename ρ result := result.map (rename ρ)
  rename_congr {ρ ρ' result} h := by
    cases result with
    | ok a => exact congrArg Except.ok (NamesTokens.rename_congr h)
    | error e => rfl

/-- The numbers of the tokens that are a tenant's own, and their numbers in another run. -/
structure Renaming where
  own : Nat → Prop
  perm : Perm Nat

namespace Renaming

variable {α : Type} [NamesTokens α] {w w' w'' : Renaming} {a a' : α} {id : TokenId}

def Owns (w : Renaming) (id : TokenId) : Prop := ∃ n, id = .issued n ∧ w.own n

/-- The second value is the first under the other names, and only own tokens are named. -/
def Relates (w : Renaming) (a a' : α) : Prop := (∀ id ∈ tokens a, w.Owns id) ∧ a' = rename w.perm a

/-- More tokens are own; those that were are named as before. -/
def Extends (w w' : Renaming) : Prop := ∀ n, w.own n → w'.own n ∧ w'.perm n = w.perm n

theorem Extends.refl (w : Renaming) : w.Extends w := fun _ h => ⟨h, rfl⟩

theorem Extends.trans (h : w.Extends w') (h' : w'.Extends w'') : w.Extends w'' := by
  intro n hn
  obtain ⟨hn', hperm⟩ := h n hn
  obtain ⟨hn'', hperm'⟩ := h' n hn'
  exact ⟨hn'', hperm'.trans hperm⟩

theorem Owns.mono (h : w.Owns id) (hw : w.Extends w') : w'.Owns id := by
  obtain ⟨n, rfl, hn⟩ := h
  exact ⟨n, rfl, (hw n hn).1⟩

theorem Extends.rename_eq (hw : w.Extends w') (h : ∀ id ∈ tokens a, w.Owns id) :
    rename w'.perm a = rename w.perm a := by
  apply NamesTokens.rename_congr
  intro id hid
  obtain ⟨n, rfl, hn⟩ := h id hid
  exact congrArg TokenId.issued (hw n hn).2

theorem Relates.mono (h : w.Relates a a') (hw : w.Extends w') : w'.Relates a a' :=
  ⟨fun id hid => (h.1 id hid).mono hw, h.2.trans (hw.rename_eq h.1).symm⟩

end Renaming

end Cabinet
