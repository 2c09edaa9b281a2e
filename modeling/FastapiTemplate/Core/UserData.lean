/-
  The pydantic models of registration.  Each carries what its validation
  checked, so a value that fails a constraint cannot be built.
-/
import FastapiTemplate.Core.Entities
import Mathlib.Tactic.Common

namespace FastapiTemplate

def PASSWORD_MAX_LENGTH : ℕ := 128
def USER_NAME_MAX_LENGTH : ℕ := 150

/-- The fields of a registration before they are validated. -/
structure RegistrationFields where
  email : String
  username : String
  firstName : String
  lastName : String
  password : String

/-- Fields that `EmailStr` and the length constraints accept; `email` is what `EmailStr`
    returned. -/
structure ValidRegistration (ext : Externals) extends RegistrationFields where
  email_valid : ∃ raw, ext.emailStr raw = some email
  username_length : username.length ≤ USER_NAME_MAX_LENGTH
  firstName_length : firstName.length ≤ USER_NAME_MAX_LENGTH
  lastName_length : lastName.length ≤ USER_NAME_MAX_LENGTH
  password_length : password.length ≤ PASSWORD_MAX_LENGTH

/-- The request body of the user creation endpoint. -/
abbrev CreateUserRequestSchema := ValidRegistration

/-- The public registration command. -/
abbrev RegisterUserDTO := ValidRegistration

/-- The rejected fields: pydantic reports all of them. -/
def RegistrationFields.rejected (ext : Externals) (f : RegistrationFields) : List String :=
  (if (ext.emailStr f.email).isSome then [] else ["email"]) ++
  (if f.username.length ≤ USER_NAME_MAX_LENGTH then [] else ["username"]) ++
  (if f.firstName.length ≤ USER_NAME_MAX_LENGTH then [] else ["first_name"]) ++
  (if f.lastName.length ≤ USER_NAME_MAX_LENGTH then [] else ["last_name"]) ++
  (if f.password.length ≤ PASSWORD_MAX_LENGTH then [] else ["password"])

/-- Construct a registration model. -/
def ValidRegistration.validate (ext : Externals) (f : RegistrationFields) :
    Except Exc (ValidRegistration ext) :=
  match he : ext.emailStr f.email with
  | none => .error (.validationError (f.rejected ext))
  | some email =>
    if h : f.username.length ≤ USER_NAME_MAX_LENGTH ∧ f.firstName.length ≤ USER_NAME_MAX_LENGTH ∧
        f.lastName.length ≤ USER_NAME_MAX_LENGTH ∧ f.password.length ≤ PASSWORD_MAX_LENGTH then
      .ok
        { f with
          email := email
          email_valid := ⟨_, he⟩
          username_length := h.1
          firstName_length := h.2.1
          lastName_length := h.2.2.1
          password_length := h.2.2.2 }
    else .error (.validationError (f.rejected ext))

variable {ext : Externals}

/-- The fields are accepted iff none is rejected, and then only the address may change. -/
theorem ValidRegistration.validate_ok {f : RegistrationFields} {data : ValidRegistration ext} :
    validate ext f = .ok data ↔
      f.rejected ext = [] ∧ ext.emailStr f.email = some data.email ∧
        data.toRegistrationFields = { f with email := data.email } := by
  obtain ⟨⟨email, username, firstName, lastName, password⟩, _⟩ := data
  unfold validate RegistrationFields.rejected
  split
  · rename_i he; simp [he]
  · rename_i e he
    split
    · rename_i h
      simp only [h, he, Option.isSome_some, if_true, List.append_nil, Except.ok.injEq,
        ValidRegistration.mk.injEq, RegistrationFields.mk.injEq, Option.some.injEq, true_and]
      constructor
      · rintro ⟨rfl, rfl, rfl, rfl, rfl⟩; simp
      · rintro ⟨rfl, h⟩; simpa [eq_comm] using h
    · rename_i h
      simp only [reduceCtorEq, false_iff, not_and, List.append_eq_nil_iff]
      intro hr
      exact absurd (by simpa [he] using hr) (by simpa [and_assoc] using h)

theorem ValidRegistration.validate_error {f : RegistrationFields} {e : Exc}
    (h : validate ext f = .error e) : e = .validationError (f.rejected ext) := by
  unfold validate at h
  split at h
  · cases h; rfl
  · split at h <;> cases h
    rfl

/-- The repository command: normalized user fields ready to persist. -/
structure PersistUserDTO (ext : Externals) where
  email : String
  username : String
  firstName : String
  lastName : String
  isActive : Bool := true
  isStaff : Bool := false
  isSuperuser : Bool := false
  email_valid : ∃ raw, ext.emailStr raw = some email
  username_length : username.length ≤ USER_NAME_MAX_LENGTH
  firstName_length : firstName.length ≤ USER_NAME_MAX_LENGTH
  lastName_length : lastName.length ≤ USER_NAME_MAX_LENGTH

/-- `_persist_user_data`: `PersistUserDTO` validates the address once more; the lengths were
    checked by the same constraints. -/
def persistUserData (data : RegisterUserDTO ext) : Except Exc (PersistUserDTO ext) :=
  match he : ext.emailStr data.email with
  | none => .error (.validationError ["email"])
  | some email =>
    .ok
      { email := email
        username := data.username
        firstName := data.firstName
        lastName := data.lastName
        isActive := true
        isStaff := false
        isSuperuser := false
        email_valid := ⟨_, he⟩
        username_length := data.username_length
        firstName_length := data.firstName_length
        lastName_length := data.lastName_length }

end FastapiTemplate
