import BraceLang.Proofs.EmissionRoundTrip

/-!
# Grouping as in Python

In Python `not` binds more loosely than a comparison and a minus more loosely than a power on its right. Here both
signs bind more tightly than every operator.
-/

namespace BraceLang

open List

/-- An expression as it is written, with all of its parentheses. -/
inductive Wording where
  | name (s : String)
  | parens (x : Wording)
  | sign (s : Sign) (x : Wording)
  | binary (o : Operator) (left right : Wording)
  deriving DecidableEq, Repr

namespace Wording

def words : Wording → List Word
  | name s => [⟨.identifier, s⟩]
  | parens x => enclosed x.words
  | sign s x => s.word :: x.words
  | binary o l r => l.words ++ (o.words ++ r.words)

def formula : Wording → Formula
  | name s => .name s
  | parens x => x.formula
  | sign s x => .sign s x.formula
  | binary o l r => .binary o l.formula r.formula

end Wording

/-! ### Python's grammar -/

/-- The rules of Python's grammar for these expressions, from the loosest to the tightest. -/
inductive PythonRule where
  | orTest | andTest | notTest | comparison | aExpr | mExpr | uExpr | power | atom
  deriving DecidableEq, Repr

namespace PythonRule

def next : PythonRule → PythonRule
  | orTest => andTest
  | andTest => notTest
  | notTest => comparison
  | comparison => aExpr
  | aExpr => mExpr
  | mExpr => uExpr
  | uExpr => power
  | power | atom => atom

def sign? : PythonRule → Option Sign
  | notTest => some .negation
  | uExpr => some .minus
  | _ => none

def operators : PythonRule → List Operator
  | orTest => [.or]
  | andTest => [.and]
  | comparison =>
    [.inside, .notInside, .same, .notSame, .equal, .notEqual, .less, .greater, .lessEqual, .greaterEqual]
  | aExpr => [.plus, .minus]
  | mExpr => [.times, .divide, .modulo, .floorDivide]
  | power => [.power]
  | notTest | uExpr | atom => []

/-- The rule of the left operands.  Comparisons are not chained, and a power has no sign before its base. -/
def left : PythonRule → PythonRule
  | comparison => aExpr
  | power => atom
  | rule => rule

/-- The rule of the right operands.  Behind a power a sign may stand. -/
def right : PythonRule → PythonRule
  | power => uExpr
  | rule => rule.next

/-- A rule of Python's grammar derives a wording. -/
inductive Derives : PythonRule → Wording → Prop
  | name (s : String) : Derives .atom (.name s)
  | parens {x : Wording} (h : Derives .orTest x) : Derives .atom (.parens x)
  | sign {rule : PythonRule} {s : Sign} {x : Wording} (hs : rule.sign? = some s) (h : Derives rule x) :
      Derives rule (.sign s x)
  | binary {rule : PythonRule} {o : Operator} {l r : Wording} (ho : o ∈ rule.operators) (hl : Derives rule.left l)
      (hr : Derives rule.right r) : Derives rule (.binary o l r)
  | tighter {rule : PythonRule} {x : Wording} (h : Derives rule.next x) : Derives rule x

/-- The level that reads the wordings of a rule, also those behind signs. -/
def level : PythonRule → Level
  | orTest => .disjunction
  | andTest => .conjunction
  | notTest | comparison => .membership
  | aExpr => .sum
  | mExpr => .product
  | uExpr | power => .power
  | atom => .sign

theorem rank_level_next (rule : PythonRule) : rule.level.rank ≤ rule.next.level.rank := by
  cases rule <;> decide

/-- The operands of an operator bind tightly enough for it, and the operator for its rule. -/
theorem ranks_of_mem_operators (rule : PythonRule) : ∀ o ∈ rule.operators,
    o.leftLevel.rank ≤ rule.left.level.rank ∧ o.rightLevel.rank ≤ rule.right.level.rank ∧
      rule.level.rank ≤ o.level.rank ∧ (o = .same → rule.right = .aExpr) := by
  cases rule <;> decide

theorem words_ne_nil (x : Wording) : x.words ≠ [] := by
  cases x with
  | binary o => cases o <;> simp [Wording.words, Operator.words]
  | _ => simp [Wording.words, enclosed]

variable {rule : PythonRule}

theorem Derives.head_ne_not (h : Derives rule x) (hrule : Level.sum.rank ≤ rule.level.rank) :
    ∀ v ∈ x.words.head?, v.kind ≠ .notKw := by
  induction h with
  | name => simp [Wording.words]
  | parens => simp [Wording.words, enclosed]
  | @sign rule s x hs h =>
    have hminus : s = .minus := by
      cases rule <;> simp_all [sign?, level, Level.rank]
    subst hminus
    simp [Wording.words, Sign.word]
  | @binary rule o l r ho hl hr ihl =>
    have hleft : Level.sum.rank ≤ rule.left.level.rank := by
      cases rule <;> simp_all [left, level, Level.rank]
    rw [Wording.words, head?_append_of_ne_nil _ (words_ne_nil l)]
    exact ihl hleft
  | @tighter rule x h ih => exact ih (Nat.le_trans hrule rule.rank_level_next)

theorem Derives.of_atom (h : Derives .atom x) : Derives rule x := by
  cases rule <;> repeat (first | exact h | apply Derives.tighter)

theorem Derives.orTest (h : Derives rule x) : Derives .orTest x := by
  cases rule <;> repeat (first | exact h | apply Derives.tighter)

theorem exists_mem_operators (o : Operator) : ∃ rule : PythonRule, o ∈ rule.operators := by
  cases o with
  | or => exact ⟨.orTest, by decide⟩
  | and => exact ⟨.andTest, by decide⟩
  | plus | minus => exact ⟨.aExpr, by decide⟩
  | times | divide | modulo | floorDivide => exact ⟨.mExpr, by decide⟩
  | power => exact ⟨.power, by decide⟩
  | _ => exact ⟨.comparison, by decide⟩

end PythonRule

/-! ### How a wording is read -/

namespace Wording

def signed (ss : List Sign) (x : Wording) : Wording := ss.foldr (fun s y => .parens (.sign s y)) x

/-- How a wording behind signs is read, with all parentheses written out: the signs belong to its first operand. -/
def grouped (ss : List Sign) : Wording → Wording
  | name s => signed ss (name s)
  | parens x => signed ss (grouped [] x)
  | sign s x => grouped (ss ++ [s]) x
  | binary o l r => .parens (.binary o (grouped ss l) (grouped [] r))

def isBinary : Wording → Bool
  | binary .. => true
  | _ => false

/-- No sign stands before an operator, except outside of parentheses around it. -/
def SignsTight : Wording → Prop
  | name _ => True
  | parens x => x.SignsTight
  | sign _ x => x.isBinary = false ∧ x.SignsTight
  | binary _ l r => l.SignsTight ∧ r.SignsTight

end Wording

theorem reads_signed (ss : List Sign) {x : Wording} (h : Reads .sign x.formula.node ws) :
    Reads .sign (x.signed ss).formula.node (ss.map Sign.word ++ ws) := by
  induction ss with
  | nil => exact h
  | cons s ss ih => exact reads_sign s ih

open PythonRule Wording Parse

theorem parsed_grouped (h : Derives rule x) (ss : List Sign) :
    Parsed rule.level (x.grouped ss).formula.node (ss.map Sign.word ++ x.words) := by
  -- signs before an operator go on to its left operand, so they are part of the induction
  induction h generalizing ss with
  | name s =>
    have hname : Parsed .primary (Formula.name s).node (Wording.name s).words := (reads_name s).parsed
    exact (reads_signed ss (x := .name s) (hname.lower (by decide)).reads).parsed
  | parens h ih =>
    have hinside := parsed_enclosed (ih []) .sign
    exact (reads_signed ss hinside.reads).parsed
  | @sign rule s x hs h ih =>
    have hmore := ih (ss ++ [s])
    rw [map_append, List.append_assoc] at hmore
    exact hmore
  | @binary rule o l r ho hl hr ihl ihr =>
    obtain ⟨hleft, hright, hlevel, hsame⟩ := rule.ranks_of_mem_operators o ho
    have hguard : o = .same → ∀ v ∈ r.words.head?, v.kind ≠ .notKw := by
      intro hoperator
      rw [hsame hoperator] at hr
      exact hr.head_ne_not (by decide)
    have hop := parsed_binary o ((ihl ss).lower hleft) ((ihr []).lower hright) hguard
    rw [List.append_assoc] at hop
    exact hop.lower hlevel
  | @tighter rule x h ih => exact (ih ss).lower rule.rank_level_next

/-! ### Python's tree -/

theorem Operator.node_inj {o : Operator} : o.node l r = o.node l' r' ↔ l = l' ∧ r = r' := by
  cases o <;> simp [Operator.node]

theorem Operator.node_ne_unary (o : Operator) (l r x : Node) (s : String) : o.node l r ≠ .unary s x := by
  cases o <;> simp [Operator.node]

namespace Wording

theorem node_signed (ss : List Sign) (x : Wording) :
    (x.signed ss).formula.node = ss.foldr (fun s n => .unary s.word.text n) x.formula.node := by
  induction ss with
  | nil => rfl
  | cons s ss ih =>
    rw [foldr_cons, ← ih]
    rfl

theorem node_signed_inj (ss : List Sign) {x y : Wording} :
    (x.signed ss).formula.node = (y.signed ss).formula.node ↔ x.formula.node = y.formula.node := by
  induction ss with
  | nil => rfl
  | cons s ss ih =>
    rw [← ih]
    simp [signed, formula, Formula.node]

/-- What is read for a wording behind signs is the signs before its tree, if and only if no sign stands before an
operator. -/
theorem node_grouped_eq_signed_iff (x : Wording) (ss : List Sign) :
    (x.grouped ss).formula.node = (x.signed ss).formula.node ↔ x.SignsTight ∧ (ss = [] ∨ x.isBinary = false) := by
  induction x generalizing ss with
  | name => simp [grouped, SignsTight, isBinary]
  | parens x ih =>
    have hinside := ih []
    rw [grouped, node_signed_inj]
    simpa [signed, formula, SignsTight, isBinary] using hinside
  | sign s x ih =>
    have hmore := ih (ss ++ [s])
    simpa [grouped, node_signed, formula, Formula.node, SignsTight, isBinary, and_comm] using hmore
  | binary o l r ihl ihr =>
    cases ss with
    | nil =>
      have hl := ihl []
      have hr := ihr []
      simp only [signed, foldr_nil, true_or, and_true] at hl hr
      simp [grouped, signed, formula, Formula.node, Operator.node_inj, SignsTight, hl, hr]
    | cons =>
      simp [grouped, node_signed, formula, Formula.node, isBinary, Operator.node_ne_unary]

/-- A wording is read as its tree if and only if no sign stands before an operator. -/
theorem node_grouped_eq_iff (x : Wording) : (x.grouped []).formula.node = x.formula.node ↔ x.SignsTight := by
  have h := x.node_grouped_eq_signed_iff []
  simpa [signed] using h

/-! ### What is emitted -/

/-- All signs and operators are in parentheses, so a wording that has been read is an atom of Python's grammar. -/
theorem derives_grouped (x : Wording) (ss : List Sign) : Derives .atom (x.grouped ss) := by
  have signed_atom {y : Wording} (ss : List Sign) (hy : Derives .atom y) : Derives .atom (y.signed ss) := by
    induction ss with
    | nil => exact hy
    | cons s ss ih =>
      cases s with
      | negation =>
        have hnot : Derives .notTest (.sign .negation (y.signed ss)) := .sign rfl ih.of_atom
        exact .parens hnot.orTest
      | minus =>
        have hminus : Derives .uExpr (.sign .minus (y.signed ss)) := .sign rfl ih.of_atom
        exact .parens hminus.orTest
  induction x generalizing ss with
  | name s => exact signed_atom ss (.name s)
  | parens x ih => exact signed_atom ss (ih [])
  | sign s x ih => exact ih (ss ++ [s])
  | binary o l r ihl ihr =>
    obtain ⟨rule, ho⟩ := exists_mem_operators o
    exact .parens (Derives.binary ho (ihl ss).of_atom (ihr []).of_atom).orTest

theorem words_grouped (x : Wording) (ss : List Sign) :
    (x.grouped ss).words = (x.grouped ss).formula.wholeWords .full := by
  have signed_full {y : Wording} (ss : List Sign) (hy : y.words = y.formula.wholeWords .full) :
      (y.signed ss).words = (y.signed ss).formula.wholeWords .full := by
    induction ss with
    | nil => exact hy
    | cons s ss ih =>
      show enclosed (s.word :: (y.signed ss).words) = _
      rw [ih]
      rfl
  induction x generalizing ss with
  | name => exact signed_full ss rfl
  | parens x ih => exact signed_full ss (ih [])
  | sign s x ih => exact ih (ss ++ [s])
  | binary o l r ihl ihr =>
    have hguard := guard_full o (r.grouped []).formula
    show enclosed ((l.grouped ss).words ++ (o.words ++ (r.grouped []).words)) = _
    rw [ihl ss, ihr [], ← hguard]
    cases o <;> rfl

theorem writable_grouped {x : Wording} (h : x.formula.Writable) (ss : List Sign) : (x.grouped ss).formula.Writable := by
  have signed_writable {y : Wording} (ss : List Sign) (hy : y.formula.Writable) : (y.signed ss).formula.Writable := by
    induction ss with
    | nil => exact hy
    | cons s ss ih => exact ih
  induction x generalizing ss with
  | name => exact signed_writable ss h
  | parens x ih => exact signed_writable ss (ih h [])
  | sign s x ih => exact ih h (ss ++ [s])
  | binary o l r ihl ihr => exact ⟨ihl h.1 ss, ihr h.2 []⟩

end Wording

/-- An expression that Python's grammar derives is read up to the semicolon behind it, with each sign at the first
operand behind it.  The tree is Python's if and only if no sign stands before an operator.  What is emitted for the tree
is a wording with this tree in Python. -/
theorem expression_python {x : Wording} (hx : Derives .orTest x) (before printed after : List Token) (mark : Token)
    (hprinted : printed.map Token.word? = x.words.map some) (hmark : mark.kind = .semicolon) :
    let y := x.grouped []
    Derives .orTest y ∧
      expression? (before ++ (printed ++ mark :: after)).toArray before.length =
        .ok y.formula.node (before.length + printed.length : Nat) ∧
      (y.formula.node = x.formula.node ↔ x.SignsTight) ∧
      ∀ (target : Target) (e : Emitter), x.formula.Writable → e.NoFinals → ∃ ts newline eof,
        tokenize (Emit.freshText (y.formula.node.emit target) e).1 = .ok (ts ++ [newline, eof]) ∧
          ts.map Token.word? = y.words.map some ∧ newline.kind = .newline ∧ eof.kind = .eof := by
  intro y
  refine ⟨(x.derives_grouped []).of_atom, ?_, x.node_grouped_eq_iff, ?_⟩
  · have hlen : printed.length = x.words.length := length_of_map_word? hprinted
    have hstands := stands_of_map_word? hprinted before (mark :: after)
    have hkind := kindAt_append (before ++ printed) after mark
    rw [List.append_assoc, List.length_append, hmark, hlen] at hkind
    rw [hlen]
    exact (parsed_grouped hx []).reads.expression hstands (stops_of_kindAt hkind (by decide)) ⟨_, hkind, by decide⟩
  · intro target e hwritable hfinals
    have hgrouped := writable_grouped hwritable []
    have htext := (writes_formula target _ hgrouped).freshText e hfinals
    rw [htext, x.words_grouped []]
    exact tokenize_of_spells (spells_formula _ hgrouped).toSpells trivial

def wordToken (w : Word) : Token := ⟨w.kind, some w.text, 1, 0, none⟩

/-- `not a and -b * c <= (d ** -e)`. -/
theorem expression_python_mixed :
    let x : Wording := .binary .and (.sign .negation (.name "a"))
      (.binary .lessEqual (.binary .times (.sign .minus (.name "b")) (.name "c"))
        (.parens (.binary .power (.name "d") (.sign .minus (.name "e")))))
    let mark := wordToken ⟨.semicolon, ";"⟩
    let y := x.grouped []
    Derives .orTest x ∧ x.SignsTight ∧ Derives .orTest y ∧
      expression? ([] ++ (x.words.map wordToken ++ mark :: [])).toArray 0 = .ok y.formula.node 14 ∧
      (y.formula.node = x.formula.node ↔ x.SignsTight) ∧
      ∀ (target : Target) (e : Emitter), x.formula.Writable → e.NoFinals → ∃ ts newline eof,
        tokenize (Emit.freshText (y.formula.node.emit target) e).1 = .ok (ts ++ [newline, eof]) ∧
          ts.map Token.word? = y.words.map some ∧ newline.kind = .newline ∧ eof.kind = .eof := by
  intro x mark y
  have hproduct : Derives .mExpr (.binary .times (.sign .minus (.name "b")) (.name "c")) :=
    .binary (by decide) (.tighter (.sign rfl (Derives.name "b").of_atom)) (Derives.name "c").of_atom
  have hpower : Derives .power (.binary .power (.name "d") (.sign .minus (.name "e"))) :=
    .binary (by decide) (.name "d") (.sign rfl (Derives.name "e").of_atom)
  have hcomparison : Derives .comparison _ := .binary (o := .lessEqual) (by decide) (.tighter hproduct)
    (Derives.parens hpower.orTest).of_atom
  have hx : Derives .orTest x :=
    .tighter (.binary (by decide) (.tighter (.sign rfl (Derives.name "a").of_atom)) (.tighter hcomparison))
  exact ⟨hx, by simp [x, SignsTight, isBinary], expression_python hx [] _ [] mark rfl rfl⟩

/-- A negation before a comparison is taken for a negation of its left operand. -/
theorem exists_expression_not_python : ∃ (x : Wording) (n : Node), Derives .orTest x ∧
    expression? (x.words.map wordToken ++ [wordToken ⟨.semicolon, ";"⟩]).toArray 0 = .ok n x.words.length ∧
    n ≠ x.formula.node := by
  have hcomparison : Derives .comparison (.binary .equal (.name "a") (.name "b")) :=
    .binary (by decide) (Derives.name "a").of_atom (Derives.name "b").of_atom
  have hx : Derives .notTest (.sign .negation (.binary .equal (.name "a") (.name "b"))) :=
    .sign rfl (.tighter hcomparison)
  refine ⟨_, .binary "==" (.unary "not" (.identifier "a")) (.identifier "b"), hx.orTest, rfl, ?_⟩
  simp [formula, Formula.node]

end BraceLang
