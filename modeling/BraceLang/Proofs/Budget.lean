import BraceLang.Grammar.Expression
import BraceLang.Proofs.KnownTokens
import Mathlib.Tactic.GCongr

/-!
# Budgets

A rule with a budget of nested expressions fails when the budget runs out.
-/

namespace BraceLang

namespace Parse

/-- Whatever `p` answers, `q` answers too. -/
def Below {α : Type} (p q : Parse α) : Prop :=
  ∀ ⦃tokens : Array Token⦄ ⦃i : Int⦄ ⦃a : α⦄ ⦃j : Int⦄, p tokens i = .ok a j → q tokens i = .ok a j

section

variable {α β σ : Type}

@[refl] theorem Below.refl (p : Parse α) : Below p p := fun _ _ _ _ h => h

@[gcongr] theorem below_bind {f g : α → Parse β} (h : Below p q) (hf : ∀ a, Below (f a) (g a)) :
    Below (p >>= f) (q >>= g) := by
  intro tokens i b j hb
  obtain ⟨a, k, ha, hfa⟩ := exists_of_bind_ok hb
  rw [bind_ok (h ha)]
  exact hf a hfa

@[gcongr] theorem below_ite {c : Prop} [Decidable c] {p p' q q' : Parse α} (h : Below p q) (h' : Below p' q') :
    Below (if c then p else p') (if c then q else q') := by
  split
  · exact h
  · exact h'

theorem below_repeatWithin {step step' : σ → Parse (σ ⊕ β)} (h : ∀ s, Below (step s) (step' s)) (n : Nat) :
    ∀ s, Below (repeatWithin step n s) (repeatWithin step' n s) := by
  induction n with
  | zero => exact fun _ => .refl _
  | succ n ih =>
    intro s
    refine below_bind (h s) fun r => ?_
    cases r with
    | inl s' => exact ih s'
    | inr => exact .refl _

@[gcongr] theorem below_iterate {step step' : σ → Parse (σ ⊕ β)} (h : ∀ s, Below (step s) (step' s)) :
    Below (iterate step s) (iterate step' s) :=
  below_bind (.refl _) fun n => below_repeatWithin h n s

end

/-! ### The rules of expressions -/

section

variable {p q : Parse Node}

@[gcongr] theorem below_operand (h : Below p q) : Below (operand p complaint) (operand q complaint) := by
  unfold operand
  gcongr

@[gcongr] theorem below_leftAssoc (h : Below p q) :
    Below (leftAssoc p operator build complaint) (leftAssoc q operator build complaint) := by
  unfold leftAssoc operatorStep
  dsimp only
  gcongr

@[gcongr] theorem below_callArguments (h : Below p q) : Below (callArguments p) (callArguments q) := by
  unfold callArguments argumentStep callArgument
  dsimp only
  gcongr

@[gcongr] theorem below_subscriptInside (h : Below p q) : Below (subscriptInside p) (subscriptInside q) := by
  unfold subscriptInside
  dsimp only
  gcongr

@[gcongr] theorem below_limitedExpression (h : Below p q) :
    Below (limitedExpression p stops) (limitedExpression q stops) := by
  unfold limitedExpression
  gcongr

@[gcongr] theorem below_comprehensionTail (h : Below p q) :
    Below (comprehensionTail p element kind) (comprehensionTail q element kind) := by
  unfold comprehensionTail
  dsimp only
  gcongr

@[gcongr] theorem below_listRest (h : Below p q) : Below (listRest p) (listRest q) := by
  unfold listRest itemStep
  gcongr

@[gcongr] theorem below_dictRest (h : Below p q) : Below (dictRest p key) (dictRest q key) := by
  unfold dictRest entryStep
  gcongr

@[gcongr] theorem below_braceRest (h : Below p q) : Below (braceRest p) (braceRest q) := by
  unfold braceRest setItemStep
  gcongr

@[gcongr] theorem below_parenRest (h : Below p q) : Below (parenRest p) (parenRest q) := by
  unfold parenRest tupleItemStep
  gcongr

@[gcongr] theorem below_primary (h : Below p q) : Below (primary p inCondition) (primary q inCondition) := by
  unfold primary
  gcongr

@[gcongr] theorem below_postfixed (h : Below p q) : Below (postfixed p) (postfixed q) := by
  unfold postfixed postfixStep
  gcongr

@[gcongr] theorem below_unary (h : Below p q) : Below (unary p n) (unary q n) := by
  induction n with
  | zero => exact .refl _
  | succ =>
    unfold unary
    dsimp only
    gcongr

@[gcongr] theorem below_power (h : Below p q) : Below (power p n) (power q n) := by
  induction n with
  | zero => exact .refl _
  | succ =>
    unfold power
    dsimp only
    gcongr

@[gcongr] theorem below_equality (h : Below p q) : Below (equality p) (equality q) := by
  unfold equality comparison sum product
  gcongr

@[gcongr] theorem below_membership (h : Below p q) : Below (membership p) (membership q) := by
  unfold membership membershipStep membershipRight
  dsimp only
  gcongr

@[gcongr] theorem below_assigning (h : Below p q) : Below (assigning p) (assigning q) := by
  unfold assigning disjunction conjunction
  dsimp only
  gcongr

end

theorem expressionWithin_mono (h : n ≤ m) : Below (expressionWithin n) (expressionWithin m) := by
  induction n generalizing m with
  | zero => exact fun tokens i a j hanswer => by cases hanswer
  | succ n ih =>
    obtain ⟨m, rfl⟩ : ∃ k, m = k + 1 := ⟨m - 1, by omega⟩
    exact below_assigning (ih (Nat.le_of_succ_le_succ h))

end Parse

end BraceLang
