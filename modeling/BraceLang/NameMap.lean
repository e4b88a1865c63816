/-!
# Maps from names

A map keeps its names in the order in which they were first put.  Putting a name again changes its value and leaves it
in its place.
-/

namespace BraceLang

/-- A map from names, in the order in which the names were first put. -/
abbrev NameMap (α : Type) := List (String × α)

namespace NameMap

variable {α : Type}

def get? (m : NameMap α) (name : String) : Option α := m.lookup name

def has (m : NameMap α) (name : String) : Bool := (get? m name).isSome

def put (name : String) (value : α) : NameMap α → NameMap α
  | [] => [(name, value)]
  | (key, old) :: m => if key = name then (key, value) :: m else (key, old) :: put name value m

/-- The map in which the value of `name`, or the given one if it has none, is changed by `f`. -/
def change (name : String) (initial : α) (f : α → α) (m : NameMap α) : NameMap α :=
  put name (f ((get? m name).getD initial)) m

def putNew (name : String) (value : α) (m : NameMap α) : NameMap α := if has m name then m else m ++ [(name, value)]

def erase (name : String) (m : NameMap α) : NameMap α := m.filter (·.1 ≠ name)

@[simp] theorem get?_put_self (name : String) (value : α) (m : NameMap α) :
    get? (put name value m) name = some value := by
  induction m with
  | nil => simp [put, get?]
  | cons e m ih =>
    obtain ⟨key, old⟩ := e
    by_cases h : key = name
    · subst h; simp [put, get?]
    · have h' : (name == key) = false := by simpa using fun e => h e.symm
      simpa [put, h, get?, List.lookup_cons, h'] using ih

@[simp] theorem get?_put_of_ne {name other : String} (h : other ≠ name) (value : α) (m : NameMap α) :
    get? (put name value m) other = get? m other := by
  induction m with
  | nil =>
    have h' : (other == name) = false := by simpa using h
    simp [put, get?, List.lookup_cons, h']
  | cons e m ih =>
    obtain ⟨key, old⟩ := e
    by_cases hk : key = name
    · subst hk
      have h' : (other == key) = false := by simpa using h
      simp [put, get?, List.lookup_cons, h']
    · simp only [get?] at ih
      by_cases ho : (other == key)
      · simp [put, hk, get?, List.lookup_cons, ho]
      · simp [put, hk, get?, List.lookup_cons, ho, ih]

end NameMap

end BraceLang
