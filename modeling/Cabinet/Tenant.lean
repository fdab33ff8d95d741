import Cabinet.Text.Blank
import Cabinet.Text.Pieces
import Cabinet.Text.Quoted
import Cabinet.Text.Affix

/-! Tenants and the keys that hold their rows apart: those of a named site begin with the site and
a slash, those of the default tenant stand alone. -/

namespace Cabinet

inductive Tenant where
  | default
  | site (id : String)
  deriving DecidableEq

inductive Tenant.Fault where
  | blank (id : String)
  | slashed (id : String)
  deriving DecidableEq

namespace Tenant

def defaultName : String := "default"

def Fault.message : Fault → String
  | .blank id => "Invalid tenant " ++ Text.quoted id ++ ": site id must not be empty"
  | .slashed id => "Invalid tenant " ++ Text.quoted id ++ ": site id must not contain '/'"

/-- The tenant of a site id. The id of the default tenant is reserved for it. -/
def ofSite (id : String) : Except Fault Tenant :=
  if Text.allBlank id then .error (.blank id)
  else if '/' ∈ id.toList then .error (.slashed id)
  else if id = defaultName then .ok .default
  else .ok (.site id)

/-- The tenant of a request; one that names no site comes from the default tenant. -/
def read : Option String → Except Fault Tenant
  | none => .ok .default
  | some id => if id = defaultName then .ok .default else ofSite id

def siteId : Tenant → Option String
  | .default => none
  | .site id => some id

def name (t : Tenant) : String := t.siteId.getD defaultName

def scope : Tenant → String
  | .default => ""
  | .site id => id ++ "/"

def key (t : Tenant) (id : String) : String := t.scope ++ id

@[simp] theorem key_default (id : String) : Tenant.default.key id = id := by
  rw [← String.toList_inj]; simp [key, scope]

theorem key_site (site id : String) : (Tenant.site site).key id = site ++ "/" ++ id := rfl

theorem key_injective {t : Tenant} {i j : String} (h : t.key i = t.key j) : i = j := by
  simpa [key] using h

/-- A key without whatever stands before its first slash. -/
def decodeId (key : String) : String :=
  match Text.cut? '/' key with
  | some (_, id) => id
  | none => key

def decode? (key : String) : Option Tenant :=
  match Text.cut? '/' key with
  | some (front, _) => if front = defaultName ∨ front = "" then none else some (.site front)
  | none => none

def rebase (t : Tenant) (key : String) : String := (Text.dropFront? t.scope key).getD key

theorem rebase_key (t : Tenant) (id : String) : t.rebase (t.key id) = id := by
  simp [rebase, key]

end Tenant

end Cabinet
