import BraceLang.Emission.Survey
import BraceLang.Syntax.Field

/-!
# The attributes of a class

A compiled class declares the attributes that its methods assign, as far as conditionals and loops are nested.  What is
assigned in a switch alone is not declared.
-/

namespace BraceLang

open List

namespace Node

/-- A statement assigns to the attribute of the receiver, in the blocks of conditionals and loops too. -/
inductive SetsAttribute (a : String) : Node → Prop
  | here (value : Node) (operator type : Option String) (p : Position) (semicolon : Bool) :
    SetsAttribute a (expression (assignment (member (identifier "self") a) value operator type p) semicolon)
  | thenBody {n c : Node} {t e : List Node} : n ∈ t → SetsAttribute a n → SetsAttribute a (conditional c t e)
  | elseBody {n c : Node} {t e : List Node} : n ∈ e → SetsAttribute a n → SetsAttribute a (conditional c t e)
  | forBody {n clause : Node} {body : List Node} : n ∈ body → SetsAttribute a n → SetsAttribute a (forLoop clause body)
  | whileBody {n c : Node} {body : List Node} : n ∈ body → SetsAttribute a n → SetsAttribute a (whileLoop c body)

variable {a : String} {n : Node} {ns : List Node}

theorem mem_allReceiverAttributes : a ∈ allReceiverAttributes ns ↔ ∃ n ∈ ns, a ∈ n.receiverAttributes := by
  induction ns with
  | nil => simp [allReceiverAttributes]
  | cons n ns ih => simp only [allReceiverAttributes, mem_append, ih, mem_cons, exists_eq_or_imp]

theorem SetsAttribute.mem_receiverAttributes (h : n.SetsAttribute a) : a ∈ n.receiverAttributes := by
  induction h with
  | here => exact mem_singleton.2 rfl
  | thenBody hn _ ih => exact mem_append_left _ (mem_allReceiverAttributes.2 ⟨_, hn, ih⟩)
  | elseBody hn _ ih => exact mem_append_right _ (mem_allReceiverAttributes.2 ⟨_, hn, ih⟩)
  | forBody hn _ ih | whileBody hn _ ih => exact mem_allReceiverAttributes.2 ⟨_, hn, ih⟩

theorem setsAttribute_of_mem {n : Node} (h : a ∈ n.receiverAttributes) : n.SetsAttribute a := by
  have hblock {name : String} {ns : List Node} (i : Nat) (hf : n.fields[i]? = some (name, .nodes (some ns)))
      (h : a ∈ allReceiverAttributes ns) : ∃ m ∈ ns, m.SetsAttribute a := by
    obtain ⟨m, hm, h⟩ := mem_allReceiverAttributes.1 h
    have hlt : sizeOf m < sizeOf n := sizeOf_lt_of_mem_members (mem_of_getElem? hf) hm
    exact ⟨m, hm, setsAttribute_of_mem h⟩
  cases n with
  | expression value =>
    cases value with
    | assignment place =>
      cases place with
      | member object name =>
        cases object with
        | identifier object =>
          obtain ⟨rfl, h⟩ := mem_ite_nil_right.1 h
          obtain rfl := mem_singleton.1 h
          exact .here ..
        | _ => cases h
      | _ => cases h
    | _ => cases h
  | conditional c t e =>
    rcases mem_append.1 h with h | h
    · obtain ⟨m, hm, h⟩ := hblock 1 rfl h
      exact .thenBody hm h
    · obtain ⟨m, hm, h⟩ := hblock 2 rfl h
      exact .elseBody hm h
  | forLoop =>
    obtain ⟨m, hm, h⟩ := hblock 1 rfl h
    exact .forBody hm h
  | whileLoop =>
    obtain ⟨m, hm, h⟩ := hblock 1 rfl h
    exact .whileBody hm h
  | _ => cases h
termination_by sizeOf n

/-- The attributes of a class are the names that a statement of one of its methods assigns; a switch assigns none. -/
theorem mem_classAttributes_iff (body : List Node) (a : String) : a ∈ classAttributes body ↔
    ∃ head params statements typeParams annotations,
      function head params (some statements) typeParams annotations ∈ body ∧ ∃ n ∈ statements, n.SetsAttribute a := by
  rw [classAttributes, mem_eraseDups, mem_flatMap]
  constructor
  · rintro ⟨n, hn, ha⟩
    cases n with
    | function head params body =>
      cases body with
      | none => cases ha
      | some =>
        obtain ⟨m, hm, ha⟩ := mem_allReceiverAttributes.1 ha
        exact ⟨_, _, _, _, _, hn, m, hm, setsAttribute_of_mem ha⟩
    | _ => cases ha
  · rintro ⟨head, params, statements, typeParams, annotations, hn, m, hm, ha⟩
    exact ⟨_, hn, mem_allReceiverAttributes.2 ⟨m, hm, ha.mem_receiverAttributes⟩⟩

end Node

end BraceLang
