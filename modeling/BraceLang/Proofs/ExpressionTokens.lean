import BraceLang.Grammar.Expression
import BraceLang.Proofs.Consumption
import BraceLang.Proofs.Formula
import BraceLang.Proofs.Shape

/-!
# The tokens of expressions

`Consumes` relates what a rule for expressions replies with to the tokens that it steps over.
-/

namespace BraceLang

open List

/-- The kinds of the operators that are a token of their own between two operands, conjunction and disjunction apart. -/
def binaryKinds : List TokenKind :=
  [.doubleStar, .star, .slash, .percent, .doubleSlash, .plus, .minus, .less, .greater, .lessEqual, .greaterEqual,
    .equal, .notEqual]

/-- The tokens of an operator between two operands, and the node that it makes of them. -/
inductive OperatorTokens : (Node → Node → Node) → List Token → Prop
  | binary {t : Token} (hk : t.kind ∈ binaryKinds) : OperatorTokens (.binary t.text) [t]
  | logical {t : Token} (hk : t.kind = .andKw ∨ t.kind = .orKw) : OperatorTokens (.logical t.text) [t]
  | within {t : Token} (hk : t.kind = .inKw) : OperatorTokens (.binary "in") [t]
  | notWithin {t u : Token} (ht : t.kind = .notKw) (hu : u.kind = .inKw) : OperatorTokens (.binary "not in") [t, u]
  | identity {t : Token} (hk : t.kind = .isKw) : OperatorTokens (.binary "is") [t]
  | notIdentity {t u : Token} (ht : t.kind = .isKw) (hu : u.kind = .notKw) : OperatorTokens (.binary "is not") [t, u]

def IsMark (t : Token) (op : Option String) : Prop :=
  (t.kind = .assign ∧ op = t.value) ∨ ∃ text, (t.kind, text) ∈ Parse.compoundMarks ∧ op = some text

inductive Part where
  | expression (firm : Bool) (n : Node)
  | operand (n : Node)
  | item (role : Role) (n : Node)
  | items (role : Role) (ns : List Node)
  | group (role : Role) (b : Bracket) (ns : List Node)
  | index (n : Node)
  | element (n key : Node)
  | condition (n : Node)
  | clauses (n : Node)

def Part.required : Part → List Node
  | .expression _ n | .item _ n | .index n | .element n _ | .clauses n => [n]
  | .items _ ns | .group _ _ ns => ns
  | .operand _ | .condition _ => []

/-- The role of the items of a collection. -/
def LiteralKind.itemRole? : LiteralKind → Option Role
  | .list | .tuple | .set => some .expression
  | .dict => some .entry
  | _ => Option.none

/-- Whether the part cannot be read without a token. -/
def Part.isSolid : Part → Bool
  | .operand _ | .items _ _ | .condition _ => false
  | _ => true

/-- The part is read from the tokens between `s` and `r`. -/
inductive Consumes : Part → List Token → List Token → Prop
  | identifier (hs : s = t :: r) (hk : t.kind = .identifier) : Consumes (.expression true (.identifier t.text)) s r
  | truth (hs : s = t :: r) (hk : t.kind = if b then .trueKw else .falseKw) :
      Consumes (.expression true (.literal (.truth b) .boolean)) s r
  | nothing (hs : s = t :: r) (hk : t.kind = .noneKw) : Consumes (.expression true (.literal .absent .none)) s r
  | literal (hs : s = t :: r) (hk : (t.kind, kind) ∈ Parse.literalKinds) :
      Consumes (.expression true (.literal (t.value.elim .absent .text) kind)) s r
  | collection (h : Consumes (.group role b items) s r)
      (hkind : kind.itemRole? = some role) : Consumes (.expression true (.collection items kind)) s r
  | parenthesized (hs : s = t :: s₁) (ht : t.kind = .lparen) (h : Consumes (.expression firm n) s₁ s₂)
      (hs₂ : s₂ = u :: r) (hu : u.kind = .rparen) : Consumes (.expression true n) s r
  | comprehension {b : Bracket} {n : Node} {t u : Token} {s s₁ s₂ r : List Token} (hs : s = t :: s₁)
      (ht : t.kind = b.opening.kind) (h : Consumes (.clauses n) s₁ s₂) (hs₂ : s₂ = u :: r)
      (hu : u.kind = b.closing.kind) : Consumes (.expression true n) s r
  | member (h : Consumes (.expression true object) s s₁) (hs₁ : s₁ = t :: s₂) (ht : t.kind = .dot) (hs₂ : s₂ = u :: r)
      (hu : u.kind = .identifier) : Consumes (.expression true (.member object u.text)) s r
  | call (h : Consumes (.expression true callee) s s₁)
      (harguments : Consumes (.group .argument .round arguments) s₁ r) :
      Consumes (.expression true (.call callee arguments)) s r
  | subscript (h : Consumes (.expression true object) s s₁) (hs₁ : s₁ = t :: s₂) (ht : t.kind = .lbracket)
      (hindex : Consumes (.index index) s₂ s₃) (hs₃ : s₃ = u :: r) (hu : u.kind = .rbracket) :
      Consumes (.expression true (.subscript object index)) s r
  | unary (hs : s = t :: s₁) (hk : t.kind = .notKw ∨ t.kind = .minus) (h : Consumes (.expression firm operand) s₁ r) :
      Consumes (.expression firm (.unary t.text operand)) s r
  | operation (hleft : Consumes (.operand left) s s₁) (hop : OperatorTokens build ts) (hs₁ : s₁ = ts ++ s₂)
      (hfirst : left = .missing → ∀ t ∈ ts.head?, t.kind ≠ .notKw ∧ t.kind ≠ .minus)
      (hright : Consumes (.expression firm right) s₂ r) : Consumes (.expression firm (build left right)) s r
  | assignment (htarget : Consumes (.expression firm target) s s₁) (hs₁ : s₁ = t :: s₂) (hop : IsMark t op)
      (hvalue : Consumes (.expression firm' value) s₂ r) :
      Consumes (.expression firm' (.assignment target value op none ⟨t.line, t.column⟩)) s r
  | lines (h : Consumes (.expression firm n) s s₁) (hlines : Skips [.newline] s₁ r) : Consumes (.expression false n) s r
  /-- A negation behind an expression is stepped over if no membership follows it. -/
  | stray (h : Consumes (.expression true n) s s₁) (hs₁ : s₁ = t :: r) (hk : t.kind = .notKw)
      (hnext : ∀ u ∈ r.head?, u.kind ≠ .inKw) : Consumes (.expression false n) s r
  | absent (hlines : Skips [.newline] s r) : Consumes (.operand .missing) s r
  | present (h : Consumes (.expression firm n) s r) : Consumes (.operand n) s r
  | plainItem (h : Consumes (.expression firm n) s r) (hrole : role = .expression ∨ role = .argument) :
      Consumes (.item role n) s r
  | namedItem (hs : s = t :: s₁) (ht : t.kind = .identifier) (hs₁ : s₁ = u :: s₂) (hu : u.kind = .assign)
      (h : Consumes (.expression firm value) s₂ r) : Consumes (.item .argument (.argument (some t.text) value)) s r
  | entryItem (hkey : Consumes (.expression firm key) s s₁) (hs₁ : s₁ = t :: s₂) (ht : t.kind = .colon)
      (hvalue : Consumes (.expression firm' value) s₂ r) : Consumes (.item .entry (.entry key value)) s r
  | noItems : Consumes (.items role []) s s
  | oneItem (h : Consumes (.item role n) s r) : Consumes (.items role [n]) s r
  | moreItems (h : Consumes (.items role ns) s s₁) (hs₁ : s₁ = t :: s₂) (ht : t.kind = .comma)
      (hlines : Skips [.newline] s₂ s₃) (hitem : Consumes (.item role n) s₃ r) : Consumes (.items role (ns ++ [n])) s r
  | group {role : Role} {b : Bracket} {ns : List Node} {t u : Token} {s s₁ s₂ s₃ s₄ r : List Token} (hs : s = t :: s₁)
      (ht : t.kind = b.opening.kind) (hlines : Skips [.newline] s₁ s₂) (h : Consumes (.items role ns) s₂ s₃)
      (hend : Skips [.newline, .comma] s₃ s₄) (hs₄ : s₄ = u :: r) (hu : u.kind = b.closing.kind) :
      Consumes (.group role b ns) s r
  | plainIndex (h : Consumes (.expression firm n) s r) : Consumes (.index n) s r
  | range (hstart : Consumes (.operand start) s s₁) (hs₁ : s₁ = t :: s₂) (ht : t.kind = .colon)
      (hstop : Consumes (.operand stop) s₂ r) : Consumes (.index (.slice start stop .missing)) s r
  | stepped (hstart : Consumes (.operand start) s s₁) (hs₁ : s₁ = t :: s₂) (ht : t.kind = .colon)
      (hstop : Consumes (.operand stop) s₂ s₃) (hs₃ : s₃ = u :: s₄) (hu : u.kind = .colon)
      (hstep : Consumes (.operand step) s₄ r) : Consumes (.index (.slice start stop step)) s r
  | plainElement (h : Consumes (.expression firm n) s r) : Consumes (.element n .missing) s r
  | keyedElement (hkey : Consumes (.expression firm key) s s₁) (hs₁ : s₁ = t :: s₂) (ht : t.kind = .colon)
      (h : Consumes (.expression firm' n) s₂ r) : Consumes (.element n key) s r
  | noCondition : Consumes (.condition .missing) s s
  | condition (hs : s = t :: s₁) (ht : t.kind = .ifKw) (h : Consumes (.expression firm n) s₁ r) :
      Consumes (.condition n) s r
  | clauses (helement : Consumes (.element element key) s s₁) (hs₁ : s₁ = t :: s₂) (ht : t.kind = .forKw)
      (htarget : Consumes (.expression firm target) s₂ s₃) (hs₃ : s₃ = u :: s₄) (hu : u.kind = .inKw)
      (hsource : Consumes (.expression firm' source) s₄ s₅) (hcondition : Consumes (.condition condition) s₅ r)
      (hkind : kind ∈ [.generator, .list, .set, .dict]) :
      Consumes (.clauses (.comprehension element target source condition kind key)) s r

variable {rule next : Parse Node} {α : Type} {firm : Bool} {key : Node} {k : Nat} {kinds : List TokenKind}
  {f : Node → Parse α} {P : α → Nat → Prop}

namespace Consumes

variable {n : Node} {s s₁ r : List Token}

theorem isPresent_of_mem (h : Consumes part s r) : ∀ n ∈ part.required, n.isPresent := by
  induction h with
  | identifier | truth | nothing | literal | collection | member | call | subscript | unary | assignment | namedItem
  | entryItem | range | stepped | clauses => exact forall_mem_singleton.2 rfl
  | operation _ hop => exact forall_mem_singleton.2 (by cases hop <;> rfl)
  | absent | present | noItems | noCondition | condition => exact forall_mem_nil _
  | moreItems _ _ _ _ _ ih ihitem => exact forall_mem_append.2 ⟨ih, ihitem⟩
  | keyedElement _ _ _ _ _ ih => exact ih
  | parenthesized _ _ _ _ _ ih | comprehension _ _ _ _ _ ih | lines _ _ ih | stray _ _ _ _ ih | plainItem _ _ ih
  | oneItem _ ih | group _ _ _ _ _ _ _ ih | plainIndex _ ih | plainElement _ ih => exact ih

theorem isPresent (h : Consumes (.expression firm n) s r) : n.isPresent :=
  h.isPresent_of_mem n (mem_singleton_self n)

theorem length_le (h : Consumes part s r) : r.length + part.isSolid.toNat ≤ s.length := by
  induction h with
  | absent h => exact h.length_le
  | lines _ h => have := h.length_le; simp_all [Part.isSolid]; omega
  | moreItems _ _ _ h => have := h.length_le; simp_all [Part.isSolid]; omega
  | group _ _ h _ h' => have := h.length_le; have := h'.length_le; simp_all [Part.isSolid]; omega
  | _ => simp_all [Part.isSolid] <;> omega

theorem exists_of_operand (h : Consumes (.operand n) s r) (hn : n.isPresent) :
    ∃ firm, Consumes (.expression firm n) s r := by
  cases h with
  | absent => cases hn
  | present h => exact ⟨_, h⟩

theorem skips_of_operand (h : Consumes (.operand n) s r) (hn : (!n.isPresent)) : Skips [.newline] s r := by
  cases h with
  | absent h => exact h
  | present h => simp [h.isPresent] at hn

theorem operand_lines (h : Consumes (.operand n) s s₁) (hlines : Skips [.newline] s₁ r) :
    Consumes (.operand n) s r := by
  cases h with
  | absent h => exact .absent (h.trans hlines)
  | present h => exact .present (.lines h hlines)

end Consumes

namespace Parse

variable {W : TokenKind → String → Prop} {S : Tape W} {expr : Parse Node} {i : Nat}

abbrev ReadAt (S : Tape W) (part : Part) (i m : Nat) : Prop :=
  Consumes part (restAt S.tokens i) (restAt S.tokens m)

theorem ReadAt.lt (h : ReadAt S part i m) (hsolid : part.isSolid) : i < m := by
  have hlength := h.length_le
  simp only [restAt, length_drop, hsolid, Bool.toNat_true] at hlength
  omega

/-- From every index on, the rule steps over the tokens of the expression that it replies with, or over line ends. -/
def ReadsOperand (S : Tape W) (rule : Parse Node) : Prop :=
  ∀ i, Runs S rule i fun n m => ReadAt S (.operand n) i m

/-- Either nothing is found and no sign stands there, or a firm expression is. -/
def Firm (S : Tape W) (i : Nat) (n : Node) (m : Nat) : Prop :=
  (n = .missing ∧ i = m ∧ ∀ t, S.tokens[i]? = some t → t.kind ≠ .notKw ∧ t.kind ≠ .minus) ∨
    ReadAt S (.expression true n) i m

theorem Firm.le (h : Firm S i n m) : i ≤ m := by
  rcases h with ⟨-, rfl, -⟩ | h
  · exact Nat.le_refl i
  · exact Nat.le_of_lt (h.lt rfl)

theorem Firm.operand (h : Firm S i n m) : ReadAt S (.operand n) i m := by
  rcases h with ⟨rfl, rfl, -⟩ | h
  · exact .absent (.refl _ _)
  · exact .present h

section

theorem runs_operand (h : ReadsOperand S rule) (i : Nat) (complaint : String) :
    Runs S (operand rule complaint) i fun n m => ∃ firm, ReadAt S (.expression firm n) i m := by
  refine runs_bind (h i) fun n m hn => ?_
  split
  · next hpresent => exact runs_pure (hn.exists_of_operand hpresent)
  · exact runs_reject

variable {kind : LiteralKind} {complaint : String} {left : Node}

theorem runs_operand_bind (h : ReadsOperand S rule)
    (hf : ∀ n m firm, ReadAt S (.expression firm n) i m → Runs S (f n) m P) :
    Runs S (operand rule complaint >>= f) i P := by
  refine runs_bind (runs_operand h i complaint) ?_
  rintro n m ⟨firm, hn⟩
  exact hf n m firm hn

theorem runs_firmOperand (h : Runs S rule i (Firm S i)) (complaint : String) :
    Runs S (operand rule complaint) i fun n m => ReadAt S (.expression true n) i m := by
  refine runs_bind h fun n m hn => ?_
  split
  · next hpresent =>
    rcases hn with ⟨rfl, -⟩ | hn
    · cases hpresent
    · exact runs_pure hn
  · exact runs_reject

theorem runs_found {q : Node → Parse α} (h : ReadsOperand S rule)
    (hp : ∀ m, Skips [.newline] (restAt S.tokens i) (restAt S.tokens m) → Runs S p m P)
    (hq : ∀ n m firm, ReadAt S (.expression firm n) i m → Runs S (q n) m P) :
    Runs S (rule >>= fun n => if (!n.isPresent) then p else q n) i P := by
  refine runs_bind (h i) fun n m hn => ?_
  split
  · next hmissing => exact hp m (hn.skips_of_operand hmissing)
  · next hpresent =>
    obtain ⟨firm, hn⟩ := hn.exists_of_operand (by simpa using hpresent)
    exact hq n m firm hn

end

/-! ### Lists of expressions -/

/-- Items between brackets, with the ends of lines around them and a comma behind the last one. -/
def Inside (ns : List Node) (s r : List Token) : Prop :=
  ∃ a b, Skips [.newline] s a ∧ Consumes (.items .argument ns) a b ∧ Skips [.newline, .comma] b r

theorem Inside.group (h : Inside ns s₁ s₂) (hs : s = t :: s₁) (ht : t.kind = b.opening.kind) (hs₂ : s₂ = u :: r)
    (hu : u.kind = b.closing.kind) : Consumes (.group .argument b ns) s r := by
  obtain ⟨x, y, hlines, hitems, hend⟩ := h
  exact .group hs ht hlines hitems hend hs₂ hu

theorem runs_callArgument (hx : ReadsOperand S expr) (i : Nat) :
    Runs S (callArgument expr) i fun n m => ReadAt S (.item .argument n) i m := by
  have hplain (complaint : String) : Runs S (operand expr complaint) i fun n m => ReadAt S (.item .argument n) i m := by
    refine runs_mono (runs_operand hx i complaint) ?_
    rintro n m ⟨firm, hn⟩
    exact .plainItem hn (.inr rfl)
  refine runs_of_holds fun hold => runs_ifCheck (fun t ht hne hk => ?_) fun _ => hplain _
  refine runs_bind runs_cursor ?_
  rintro _ _ ⟨rfl, rfl⟩
  refine runs_step_bind ht hne (runs_ifTaken (fun u hu hmark => ?_) (runs_seek hold (hplain _)))
  refine runs_operand_bind hx fun value m firm hvalue => ?_
  exact runs_pure (.namedItem (restAt_eq_cons ht) (mem_singleton.1 hk) (restAt_eq_cons hu) hmark hvalue)

theorem runs_callArguments (hx : ReadsOperand S expr) (i : Nat) :
    Runs S (callArguments expr) i fun ns m => Inside ns (restAt S.tokens i) (restAt S.tokens m) := by
  refine runs_bind (runs_skipAll _) fun _ j hj => ?_
  refine runs_bind (runs_check _) ?_
  rintro b _ ⟨rfl, -⟩
  extract_lets close
  have hclose (args : List Node) (k : Nat) (hargs : ReadAt S (.items .argument args) j k) :
      Runs S (close args) k fun ns m => Inside ns (restAt S.tokens i) (restAt S.tokens m) := by
    refine runs_bind (runs_skipAll _) fun _ m hm => ?_
    exact runs_pure ⟨_, _, hj.2, hargs, hm.2.mono (by simp)⟩
  split
  · exact hclose [] j .noItems
  · refine runs_bind (P := fun args k => ReadAt S (.items .argument args) j k) ?_ hclose
    -- In every round the arguments so far are ready for one more item.
    refine runs_iterate (fun args k => ∀ n r, Consumes (.item .argument n) (restAt S.tokens k) r →
      Consumes (.items .argument (args.reverse ++ [n])) (restAt S.tokens j) r)
        (fun n r hn => .oneItem hn) fun args k hargs => ?_
    refine runs_bind (runs_callArgument hx k) fun arg l harg => ?_
    have hitems := hargs arg _ harg
    rw [← reverse_cons] at hitems
    refine runs_ifTaken (fun t ht hk => ?_) (runs_pure hitems)
    refine runs_bind (runs_skipAll _) fun _ m hm => ?_
    have hlt := harg.lt rfl
    exact runs_pure ⟨fun _ _ => by omega, fun n r hn => .moreItems hitems (restAt_eq_cons ht) hk hm.2 hn⟩

theorem runs_subscriptInside (hx : ReadsOperand S expr) (i : Nat) :
    Runs S (subscriptInside expr) i fun n m => ReadAt S (.index n) i m := by
  have hnode (j : Nat) (complaint : String) :
      Runs S (operand expr complaint) j fun n m => ReadAt S (.operand n) j m := by
    refine runs_mono (runs_operand hx j complaint) ?_
    rintro n m ⟨firm, hn⟩
    exact .present hn
  have habsent (j : Nat) : ReadAt S (.operand .missing) j j := .absent (.refl _ _)
  refine runs_ifCheck (fun _ _ _ _ => runs_reject_bind) fun _ => ?_
  refine runs_bind (runs_check _) ?_
  rintro b _ ⟨rfl, -⟩
  extract_lets inside
  have hinside (first : Node) (j : Nat) (hfirst : ReadAt S (.operand first) i j) :
      Runs S (inside first) j fun n m => ReadAt S (.index n) i m := by
    refine runs_ifStep (fun t ht hcolon => ?_) ?_
    · refine runs_bind (runs_check _) ?_
      rintro b _ ⟨rfl, -⟩
      extract_lets afterStop
      have hstop (stop : Node) (k : Nat) (hstop : ReadAt S (.operand stop) (j + 1) k) :
          Runs S (afterStop stop) k fun n m => ReadAt S (.index n) i m := by
        refine runs_ifTaken (fun u hu hcolon' => ?_) ?_
        · have hstep (step : Node) (m : Nat) (hstep : ReadAt S (.operand step) (k + 1) m) :
              ReadAt S (.index (.slice first stop step)) i m :=
            .stepped hfirst (restAt_eq_cons ht) hcolon hstop (restAt_eq_cons hu) hcolon' hstep
          refine runs_ifCheck (fun _ _ _ _ => runs_pure (hstep _ _ (habsent _))) fun _ => ?_
          exact runs_bind (hnode _ _) fun step m h => runs_pure (hstep step m h)
        · exact runs_pure (.range hfirst (restAt_eq_cons ht) hcolon hstop)
      split
      · exact hstop _ _ (habsent _)
      · exact runs_bind (hnode _ _) hstop
    · split
      · next hpresent =>
        obtain ⟨firm, hfirst⟩ := hfirst.exists_of_operand hpresent
        exact runs_pure (.plainIndex hfirst)
      · exact runs_reject
  split
  · exact hinside _ _ (habsent _)
  · exact runs_bind (hnode _ _) hinside

/-! ### Comprehensions -/

theorem runs_skipToStop (stops : List TokenKind) (i : Nat) : Runs S (skipToStop stops) i fun _ _ => True := by
  refine runs_iterate (fun _ _ => True) trivial fun depth m _ => ?_
  refine runs_bind runs_isAtEnd ?_
  rintro b _ ⟨rfl, t, ht, hb⟩
  split
  · exact runs_pure trivial
  · next hne =>
    have hstep (d : Nat) : Runs S (advance >>= fun _ => pure (.inl d)) m fun (r : Nat ⊕ Unit) k =>
        Sum.elim (fun _ => (∀ e ∈ S.stop, m < k) ∧ True) (fun _ => True) r :=
      runs_step_bind ht (fun hk => hne (hb.2 hk)) (runs_pure ⟨fun _ _ => Nat.lt_succ_self m, trivial⟩)
    refine runs_bind runs_peek ?_
    rintro t _ ⟨rfl, -⟩
    extract_lets kind
    split
    · exact runs_pure trivial
    · split
      · exact hstep _
      · split
        · split
          · exact runs_pure trivial
          · exact hstep _
        · exact hstep _

theorem runs_limitedExpression (hx : ReadsOperand S expr) (stops : List TokenKind) :
    ReadsOperand S (limitedExpression expr stops) := by
  refine fun i => runs_of_holds fun hold => runs_bind runs_cursor ?_
  rintro _ _ ⟨rfl, rfl⟩
  refine runs_bind (runs_skipToStop stops i) fun _ j _ => ?_
  refine runs_bind runs_cursor ?_
  rintro _ _ ⟨rfl, rfl⟩
  split
  · next hj =>
    cases Int.ofNat.inj hj
    exact runs_pure (.absent (.refl _ _))
  · exact runs_seek hold (hx i)

/-- How the rule for comprehensions ends: it steps over the closing bracket of all but generators. -/
def ClosedBy (kind : ComprehensionKind) (s r : List Token) : Prop :=
  match kind with
  | .list => ∃ u, s = u :: r ∧ u.kind = .rbracket
  | .set | .dict => ∃ u, s = u :: r ∧ u.kind = .rbrace
  | _ => s = r

/-- A comprehension of the element in front, to which a key may be added. -/
def Comprehends (S : Tape W) (element : Node) (kind : ComprehensionKind) (i : Nat) (n : Node) (m : Nat) : Prop :=
  ∃ target source condition, n = .comprehension element target source condition kind .missing ∧
    ∀ key s, Consumes (.element element key) s (restAt S.tokens i) → ∃ r,
      Consumes (.clauses (.comprehension element target source condition kind key)) s r ∧
        ClosedBy kind r (restAt S.tokens m)

theorem runs_comprehensionTail {kind : ComprehensionKind} (hx : ReadsOperand S expr) (i : Nat) (element : Node)
    (hkind : kind ∈ [.generator, .list, .set, .dict]) :
    Runs S (comprehensionTail expr element kind) i (Comprehends S element kind i) := by
  refine runs_expect_bind fun t ht hfor => ?_
  refine runs_operand_bind hx fun target j firm htarget => ?_
  refine runs_expect_bind fun u hu hin => ?_
  refine runs_operand_bind (runs_limitedExpression hx _) fun source k firm' hsource => ?_
  refine runs_bind (runs_accept _) fun b l hb => ?_
  extract_lets close
  have hclose (condition : Node) (m : Nat) (hcondition : ReadAt S (.condition condition) k m) :
      Runs S (close condition) m (Comprehends S element kind i) := by
    have hclauses (key : Node) (s : List Token) (helement : Consumes (.element element key) s (restAt S.tokens i)) :
        Consumes (.clauses (.comprehension element target source condition kind key)) s (restAt S.tokens m) :=
      .clauses helement (restAt_eq_cons ht) hfor htarget (restAt_eq_cons hu) hin hsource hcondition hkind
    cases kind with
    | generator | other => exact runs_pure ⟨_, _, _, rfl, fun key s h => ⟨_, hclauses key s h, rfl⟩⟩
    | list | set | dict =>
      refine runs_expect_bind fun v hv hclose => ?_
      exact runs_pure ⟨_, _, _, rfl, fun key s h => ⟨_, hclauses key s h, v, restAt_eq_cons hv, hclose⟩⟩
  rcases hb with ⟨rfl, v, hv, -, hif, rfl⟩ | ⟨rfl, -, rfl⟩
  · refine runs_operand_bind (runs_limitedExpression hx _) fun condition m _ hcondition => ?_
    exact hclose condition m (.condition (restAt_eq_cons hv) (mem_singleton.1 hif) hcondition)
  · exact hclose .missing k .noCondition

/-! ### Primary expressions -/

def UpToEnd (S : Tape W) (role : Role) (j : Nat) (ns : List Node) (m : Nat) : Prop :=
  ∃ r, Consumes (.items role ns) (restAt S.tokens j) r ∧ Skips [.newline, .comma] r (restAt S.tokens m)

def Collected (S : Tape W) (role : Role) (j : Nat) (items : List Node) (l : Nat) : Prop :=
  ReadAt S (.items role items.reverse) j l

section

variable {j l m : Nat} {items : List Node} {item : Node} {t v : Token} {b : Bracket} {role : Role} {kind : LiteralKind}

theorem Collected.one (h : ReadAt S (.item role item) j l) : Collected S role j [item] l := .oneItem h

theorem Collected.more (h : Collected S role j items l) (hv : S.tokens[l]? = some v) (hcomma : v.kind = .comma)
    (hitem : ReadAt S (.item role item) (l + 1) m) : Collected S role j (item :: items) m := by
  have hmore := Consumes.moreItems h (restAt_eq_cons hv) hcomma (.refl _ _) hitem
  rwa [← reverse_cons] at hmore

theorem Collected.upToEnd (h : Collected S role j items l) : UpToEnd S role j items.reverse l := ⟨_, h, .refl _ _⟩

theorem Collected.upToEnd_of_comma (h : Collected S role j items l) (hv : S.tokens[l]? = some v)
    (hcomma : v.kind = .comma)
    (hlines : Skips [.newline] (restAt S.tokens (l + 1)) (restAt S.tokens m)) : UpToEnd S role j items.reverse m :=
  ⟨_, h, .trans (.one (restAt_eq_cons hv) (by simp [hcomma])) (hlines.mono (by simp))⟩

theorem UpToEnd.collection (h : UpToEnd S role (i + 1) items m) (ht : S.tokens[i]? = some t)
    (hk : t.kind = b.opening.kind) (hv : S.tokens[m]? = some v) (hclose : v.kind = b.closing.kind)
    (hkind : kind.itemRole? = some role) :
    ReadAt S (.expression true (.collection items kind)) i (m + 1) := by
  obtain ⟨r, hitems, hend⟩ := h
  exact .collection (.group (restAt_eq_cons ht) hk (.refl _ _) hitems hend (restAt_eq_cons hv) hclose) hkind

theorem runs_empty (ht : S.tokens[i]? = some t) (hk : t.kind = b.opening.kind)
    (hq : Runs S q (i + 1) fun n m => ReadAt S (.expression true n) i m) (hkind : kind.itemRole? = some role) :
    Runs S (check [b.closing.kind] >>= fun c =>
      if c then advance >>= fun _ => pure (.collection [] kind) else q) (i + 1)
      fun n m => ReadAt S (.expression true n) i m := by
  refine runs_ifStep (fun u hu hclose => runs_pure ?_) hq
  have hempty : UpToEnd S role (i + 1) [] (i + 1) := ⟨_, .noItems, .refl _ _⟩
  exact hempty.collection ht hk hu hclose hkind

theorem runs_collection (ht : S.tokens[i]? = some t) (hk : t.kind = b.opening.kind)
    (hloop : Runs S loop j (UpToEnd S role (i + 1))) (hkind : kind.itemRole? = some role) :
    Runs S (loop >>= fun items => expect b.closing.kind complaint >>= fun _ => pure (.collection items kind)) j
      fun n m => ReadAt S (.expression true n) i m := by
  refine runs_bind hloop fun items m hitems => runs_expect_bind fun u hu hclose => ?_
  exact runs_pure (hitems.collection ht hk hu hclose hkind)

theorem Comprehends.expression {kind : ComprehensionKind} (h : Comprehends S item kind l n m)
    (hkind : ∀ s r, ClosedBy kind s r → ∃ u, s = u :: r ∧ u.kind = b.closing.kind) (ht : S.tokens[i]? = some t)
    (hk : t.kind = b.opening.kind) (hitem : ReadAt S (.element item key) (i + 1) l) :
    ∃ target source condition, n = .comprehension item target source condition kind .missing ∧
      ReadAt S (.expression true (.comprehension item target source condition kind key)) i m := by
  obtain ⟨target, source, condition, rfl, hclauses⟩ := h
  obtain ⟨r, hr, hclosed⟩ := hclauses key _ hitem
  obtain ⟨u, hu, hclose⟩ := hkind _ _ hclosed
  exact ⟨_, _, _, rfl, .comprehension (restAt_eq_cons ht) hk hr hu hclose⟩

end

theorem runs_listRest (hx : ReadsOperand S expr) (ht : S.tokens[i]? = some t) (hk : t.kind = .lbracket) :
    Runs S (listRest expr) (i + 1) fun n m => ReadAt S (.expression true n) i m := by
  refine runs_empty (b := .square) ht hk (runs_operand_bind hx fun first j firm hfirst => ?_) rfl
  refine runs_ifCheck (fun _ _ _ _ => ?_) fun _ => runs_collection (b := .square) ht hk ?_ rfl
  · refine runs_mono (runs_comprehensionTail hx _ _ (by simp)) fun n m hn => ?_
    obtain ⟨_, _, _, rfl, h⟩ := hn.expression (b := .square) (fun _ _ => id) ht hk (.plainElement hfirst)
    exact h
  · refine runs_iterate (Collected S .expression (i + 1)) (.one (.plainItem hfirst (.inl rfl))) fun items k hitems => ?_
    refine runs_ifTaken (fun u hu hcomma => ?_) (runs_pure hitems.upToEnd)
    refine runs_operand_bind hx fun item l _ hitem => ?_
    exact runs_pure ⟨fun _ _ => Nat.lt_of_succ_lt (hitem.lt rfl), hitems.more hu hcomma (.plainItem hitem (.inl rfl))⟩

theorem runs_dictRest (hx : ReadsOperand S expr) (ht : S.tokens[i]? = some t) (hk : t.kind = .lbrace)
    (hkey : ReadAt S (.expression firm key) (i + 1) j)
    (hu : S.tokens[j]? = some u) (hcolon : u.kind = .colon) :
    Runs S (dictRest expr key) (j + 1) fun n m => ReadAt S (.expression true n) i m := by
  refine runs_operand_bind hx fun value k firm' hvalue => ?_
  refine runs_ifCheck (fun _ _ _ _ => ?_) fun _ => runs_collection (b := .curly) ht hk ?_ rfl
  · refine runs_bind (runs_comprehensionTail hx _ _ (by simp)) fun n m hn => ?_
    obtain ⟨_, _, _, rfl, h⟩ := hn.expression (b := .curly) (fun _ _ => id) ht hk
      (.keyedElement hkey (restAt_eq_cons hu) hcolon hvalue)
    exact runs_pure h
  · refine runs_iterate (Collected S .entry (i + 1)) (.one (.entryItem hkey (restAt_eq_cons hu) hcolon hvalue))
      fun entries l hentries => ?_
    refine runs_ifTaken (fun v hv hcomma => ?_) (runs_pure hentries.upToEnd)
    refine runs_found hx (fun m hm => runs_pure (hentries.upToEnd_of_comma hv hcomma hm))
      fun key' m _ hkey' => ?_
    refine runs_expect_bind fun w hw hcolon' => runs_operand_bind hx fun value' o _ hvalue' => ?_
    have hlt := hkey'.lt rfl
    have hlt' := hvalue'.lt rfl
    exact runs_pure ⟨fun _ _ => by omega,
      hentries.more hv hcomma (.entryItem hkey' (restAt_eq_cons hw) hcolon' hvalue')⟩

theorem runs_braceRest (hx : ReadsOperand S expr) (ht : S.tokens[i]? = some t) (hk : t.kind = .lbrace) :
    Runs S (braceRest expr) (i + 1) fun n m => ReadAt S (.expression true n) i m := by
  refine runs_empty (b := .curly) ht hk (runs_operand_bind hx fun first j firm hfirst => ?_) rfl
  refine runs_ifTaken (fun u hu hcolon => runs_dictRest hx ht hk hfirst hu hcolon) ?_
  refine runs_ifCheck (fun _ _ _ _ => ?_) fun _ => runs_collection (b := .curly) ht hk ?_ rfl
  · refine runs_mono (runs_comprehensionTail hx _ _ (by simp)) fun n m hn => ?_
    obtain ⟨_, _, _, rfl, h⟩ := hn.expression (b := .curly) (fun _ _ => id) ht hk (.plainElement hfirst)
    exact h
  · refine runs_iterate (Collected S .expression (i + 1)) (.one (.plainItem hfirst (.inl rfl))) fun items l hitems => ?_
    refine runs_ifTaken (fun v hv hcomma => ?_) (runs_pure hitems.upToEnd)
    refine runs_found hx (fun m hm => runs_pure (hitems.upToEnd_of_comma hv hcomma hm)) fun item m _ hitem => ?_
    exact runs_pure ⟨fun _ _ => Nat.lt_of_succ_lt (hitem.lt rfl), hitems.more hv hcomma (.plainItem hitem (.inl rfl))⟩

theorem runs_parenRest (hx : ReadsOperand S expr) (ht : S.tokens[i]? = some t) (hk : t.kind = .lparen) :
    Runs S (parenRest expr) (i + 1) fun n m => ReadAt S (.expression true n) i m := by
  refine runs_empty (b := .round) ht hk (runs_operand_bind hx fun first j firm hfirst => ?_) rfl
  refine runs_ifCheck (fun _ _ _ _ => ?_) fun _ => runs_ifTaken (fun u hu hcomma => ?_) ?_
  · refine runs_bind (runs_comprehensionTail hx _ _ (by simp)) ?_
    rintro _ m ⟨target, source, condition, rfl, hclauses⟩
    obtain ⟨r, hr, rfl⟩ := hclauses .missing _ (.plainElement hfirst)
    refine runs_expect_bind fun u hu hclose => ?_
    exact runs_pure (.comprehension (b := .round) (restAt_eq_cons ht) hk hr (restAt_eq_cons hu) hclose)
  · have hone : Collected S .expression (i + 1) [first] j := .one (.plainItem hfirst (.inl rfl))
    refine runs_ifStep (fun v hv hclose => ?_) (runs_collection (b := .round) ht hk ?_ rfl)
    · have hitems : UpToEnd S .expression (i + 1) [first] (j + 1) := hone.upToEnd_of_comma hu hcomma (.refl _ _)
      exact runs_pure (hitems.collection (b := .round) ht hk hv hclose rfl)
    -- Every round starts behind a comma.
    refine runs_iterate (fun items l => ∃ k v, S.tokens[k]? = some v ∧ v.kind = .comma ∧ l = k + 1 ∧
      Collected S .expression (i + 1) items k) ⟨j, u, hu, hcomma, rfl, hone⟩ ?_
    rintro items _ ⟨k, v, hv, hcomma', rfl, hitems⟩
    refine runs_found hx (fun m hm => runs_pure (hitems.upToEnd_of_comma hv hcomma' hm)) fun item m _ hitem => ?_
    have hmore := hitems.more hv hcomma' (.plainItem hitem (.inl rfl))
    refine runs_bind (runs_accept _) ?_
    rintro b l (⟨rfl, w, hw, -, hcomma'', rfl⟩ | ⟨rfl, -, rfl⟩)
    · have hcomma'' := mem_singleton.1 hcomma''
      refine runs_ifCheck (fun _ _ _ _ => ?_) fun _ =>
        runs_pure ⟨fun _ _ => Nat.lt_succ_of_lt (hitem.lt rfl), m, w, hw, hcomma'', rfl, hmore⟩
      exact runs_pure (hmore.upToEnd_of_comma hw hcomma'' (.refl _ _))
    · exact runs_pure hmore.upToEnd
  · refine runs_expect_bind fun u hu hclose => ?_
    exact runs_pure (.parenthesized (restAt_eq_cons ht) hk hfirst (restAt_eq_cons hu) hclose)

theorem mem_literalKinds (h : kind ∈ literalKinds.map Prod.fst) :
    (kind, (literalKinds.lookup kind).getD .string) ∈ literalKinds := by
  revert h
  cases kind <;> decide

theorem mem_compoundMarks (h : kind ∈ compoundMarks.map Prod.fst) :
    (kind, (compoundMarks.lookup kind).getD "") ∈ compoundMarks := by
  revert h
  cases kind <;> decide

theorem runs_reserved (ht : S.tokens[i]? = some t) (hk : t.kind = .lambdaKw) :
    Runs S (fail .lambdaReserved) (i + 1) P := by
  intro hi e he
  have := hi e he
  exact ⟨by omega, by omega, t, by rwa [Int.natCast_add, Int.natCast_one, Int.add_sub_cancel, tokenAt?_natCast], hk⟩

/-- The rules below whole expressions ask for one only behind a token of their own. -/
theorem runs_inside (hold : S.Holds i) (h : Runs (S.onward (S.start + 1)) p (i + 1) P) : Runs S p (i + 1) P :=
  h.widen fun e he => ⟨Nat.le_succ _, Nat.succ_le_succ (hold e he).1⟩

/-- Outside a condition a primary expression is firm, and if there is none, nothing is stepped over. -/
theorem runs_primary (hx : ReadsOperand (S.onward (S.start + 1)) expr) (i : Nat) :
    Runs S (primary expr false) i fun n m => (n = .missing ∧ i = m) ∨ ReadAt S (.expression true n) i m := by
  refine runs_of_holds fun hold => runs_bind (P := fun b m => b = false ∧ i = m) (runs_pure ⟨rfl, rfl⟩) ?_
  rintro _ _ ⟨rfl, rfl⟩
  refine runs_ifTaken (fun t ht hk => ?_) (runs_ifTaken (fun t ht hk => ?_) (runs_ifTaken (fun t ht hk => ?_)
    (runs_ifTaken (fun t ht hk => ?_) (runs_ifTaken (fun t ht hk => ?_) (runs_ifAccept (fun t ht _ hk => ?_)
    fun _ => runs_ifTaken (fun t ht hk => ?_) (runs_ifTaken (fun t ht hk => ?_)
    (runs_ifTaken (fun t ht hk => runs_reserved ht hk) (runs_pure (.inl ⟨rfl, rfl⟩)))))))))
  · exact runs_pure (.inr (.truth (b := true) (restAt_eq_cons ht) hk))
  · exact runs_pure (.inr (.truth (b := false) (restAt_eq_cons ht) hk))
  · exact runs_mono (runs_inside hold (runs_listRest hx ht hk)) fun _ _ h => .inr h
  · exact runs_mono (runs_inside hold (runs_braceRest hx ht hk)) fun _ _ h => .inr h
  · exact runs_pure (.inr (.nothing (restAt_eq_cons ht) hk))
  · exact runs_previous_bind ht (runs_pure (.inr (.literal (restAt_eq_cons ht) (mem_literalKinds hk))))
  · exact runs_previous_bind ht (runs_pure (.inr (.identifier (restAt_eq_cons ht) hk)))
  · exact runs_mono (runs_inside hold (runs_parenRest hx ht hk)) fun _ _ h => .inr h

/-! ### Operators -/

theorem runs_postfixed (hx : ReadsOperand (S.onward (S.start + 1)) expr) (i : Nat) :
    Runs S (postfixed expr) i fun n m =>
    (n = .missing ∧ i = m) ∨ ReadAt S (.expression true n) i m := by
  refine runs_bind (runs_primary hx i) ?_
  rintro first j (⟨rfl, rfl⟩ | hfirst)
  · exact runs_pure (.inl ⟨rfl, rfl⟩)
  rw [if_neg (by simp [hfirst.isPresent])]
  refine runs_mono (P := fun n m => ReadAt S (.expression true n) i m) ?_ fun _ _ h => .inr h
  refine runs_iterate (fun n m => ReadAt S (.expression true n) i m) hfirst fun n k hn => runs_of_holds fun hold => ?_
  refine runs_ifTaken (fun t ht hk => ?_) (runs_ifTaken (fun t ht hk => ?_)
    (runs_ifTaken (fun t ht hk => ?_) (runs_pure hn)))
  · refine runs_bind (runs_check _) ?_
    rintro b _ ⟨rfl, u, hu, hb⟩
    cases b with
    | false => exact runs_reject_bind
    | true =>
      obtain ⟨hne, hname⟩ := hb.1 rfl
      refine runs_step_bind hu hne (runs_pure ⟨fun _ _ => by omega, ?_⟩)
      exact .member hn (restAt_eq_cons ht) hk (restAt_eq_cons hu) (mem_singleton.1 hname)
  · refine runs_bind (runs_inside hold (runs_callArguments hx _)) fun args l hargs => ?_
    refine runs_expect_bind fun u hu hclose => ?_
    have harguments : ReadAt S (.group .argument .round args) k (l + 1) :=
      hargs.group (restAt_eq_cons ht) hk (restAt_eq_cons hu) hclose
    exact runs_pure ⟨fun _ _ => harguments.lt rfl, .call hn harguments⟩
  · refine runs_bind (runs_inside hold (runs_subscriptInside hx _)) fun index l hindex => ?_
    refine runs_expect_bind fun u hu hclose => runs_pure ⟨fun _ _ => ?_, ?_⟩
    · exact Nat.lt_succ_of_lt (Nat.lt_of_succ_lt (hindex.lt rfl))
    · exact .subscript hn (restAt_eq_cons ht) hk hindex (restAt_eq_cons hu) hclose

theorem runs_unary (hx : ReadsOperand (S.onward (S.start + 1)) expr) (n i : Nat) (hn : S.Allows i n) :
    Runs S (unary expr n) i (Firm S i) := by
  induction n generalizing i with
  | zero => exact runs_exhausted hn
  | succ n ih =>
    have hsigned {t : Token} (ht : S.tokens[i]? = some t) (hk : t.kind = .notKw ∨ t.kind = .minus)
        (complaint : String) :
        Runs S (previous >>= fun t => operand (unary expr n) complaint >>= fun m => pure (.unary t.text m))
          (i + 1) (Firm S i) := by
      refine runs_previous_bind ht ?_
      refine runs_bind (runs_firmOperand (ih _ (hn.next (Nat.lt_succ_self i))) _) fun x m hx => ?_
      exact runs_pure (.inr (.unary (restAt_eq_cons ht) hk hx))
    refine runs_ifAccept (fun t ht _ hk => hsigned ht (.inl (mem_singleton.1 hk)) _) fun hnot =>
      runs_ifAccept (fun t ht _ hk => hsigned ht (.inr (mem_singleton.1 hk)) _) fun hminus => ?_
    refine runs_mono (runs_postfixed hx i) ?_
    rintro n m (⟨rfl, rfl⟩ | hn)
    · refine .inl ⟨rfl, rfl, fun t ht => ⟨fun hk => ?_, fun hk => ?_⟩⟩
      · cases hk.symm.trans (hnot t ht (by simp [hk]))
      · cases hk.symm.trans (hminus t ht (by simp [hk]))
    · exact .inr hn

theorem Firm.binary (hleft : Firm S i left k) (ht : S.tokens[k]? = some t) (hk : t.kind ∈ binaryKinds)
    (hright : ReadAt S (.expression true right) (k + 1) m) : Firm S i (.binary t.text left right) m := by
  refine .inr (.operation hleft.operand (.binary hk) (restAt_eq_cons ht) (fun hmissing u hu => ?_) hright)
  cases hu
  rcases hleft with ⟨-, rfl, hsign⟩ | hleft
  · exact hsign t ht
  · rw [hmissing] at hleft
    cases hleft.isPresent

theorem runs_firmRight {g : Node → α} {complaint : Token → String}
    (hrule : Runs S rule (k + 1) (Firm S (k + 1))) (hleft : Firm S i left k) (ht : S.tokens[k]? = some t)
    (hk : t.kind ∈ binaryKinds) (hP : ∀ n m, k < m → Firm S i n m → P (g n) m) : Runs S (previous >>= fun t =>
      operand rule (complaint t) >>= fun right => pure (g (.binary t.text left right))) (k + 1) P := by
  refine runs_previous_bind ht (runs_bind (runs_firmOperand hrule _) fun right m hright => ?_)
  exact runs_pure (hP _ m (Nat.lt_of_succ_lt (hright.lt rfl)) (hleft.binary ht hk hright))

theorem runs_power (hx : ReadsOperand (S.onward (S.start + 1)) expr) (n i : Nat) (hn : S.Allows i n) :
    Runs S (power expr n) i (Firm S i) := by
  induction n generalizing i with
  | zero => exact runs_exhausted hn
  | succ n ih =>
    refine runs_bind runs_budget ?_
    rintro fuel _ ⟨rfl, hfuel⟩
    refine runs_bind (runs_unary hx fuel i hfuel) fun base j hbase => ?_
    refine runs_ifTaken (fun t ht hk => ?_) (runs_pure hbase)
    have hlater := ih (j + 1) (hn.next (Nat.lt_succ_of_le hbase.le))
    exact runs_firmRight hlater hbase ht (hk ▸ by decide) fun _ _ _ h => h

theorem runs_leftAssoc (hnext : ∀ i, Runs S next i (Firm S i)) (hkinds : ∀ k ∈ kinds, k ∈ binaryKinds)
    (complaint : String → String) (i : Nat) :
    Runs S (leftAssoc next (accept kinds) .binary complaint) i (Firm S i) := by
  refine runs_bind (hnext i) fun first j hfirst => ?_
  refine runs_iterate (Firm S i) hfirst fun left k hleft => ?_
  refine runs_ifAccept (fun t ht _ hk => ?_) fun _ => runs_pure hleft
  exact runs_firmRight (hnext _) hleft ht (hkinds _ hk) fun _ _ hlt h => ⟨fun _ _ => hlt, h⟩

theorem runs_equality (hx : ReadsOperand (S.onward (S.start + 1)) expr) (i : Nat) :
    Runs S (equality expr) i (Firm S i) := by
  have hpower (i : Nat) : Runs S (do power expr (← budget)) i (Firm S i) := by
    refine runs_bind runs_budget ?_
    rintro n _ ⟨rfl, hn⟩
    exact runs_power hx n i hn
  have hproduct (i : Nat) : Runs S (product expr) i (Firm S i) :=
    runs_leftAssoc hpower (by decide) _ i
  have hsum (i : Nat) : Runs S (sum expr) i (Firm S i) := runs_leftAssoc hproduct (by decide) _ i
  have hcomparison (i : Nat) : Runs S (comparison expr) i (Firm S i) :=
    runs_leftAssoc hsum (by decide) _ i
  exact runs_leftAssoc hcomparison (by decide) _ i

theorem runs_membershipStep (hx : ReadsOperand (S.onward (S.start + 1)) expr) (hleft : Firm S i left k) :
    Runs S (membershipStep expr left) k fun r m => Sum.elim (fun n => (∀ e ∈ S.stop, k < m) ∧ Firm S i n m)
      (fun n => ReadAt S (.operand n) i m) r := by
  -- An operator with tokens `ts` between `l` and `m`, and the operand behind it.
  have hright {op : String} {ts : List Token} {l m : Nat} (hlt : k < m) (hop : OperatorTokens (.binary op) ts)
      (hl : ReadAt S (.operand left) i l) (hts : restAt S.tokens l = ts ++ restAt S.tokens m)
      (hfirst : left = .missing → ∀ t ∈ ts.head?, t.kind ≠ .notKw ∧ t.kind ≠ .minus) :
      Runs S (membershipRight expr op left) m fun r m => Sum.elim (fun n => (∀ e ∈ S.stop, k < m) ∧ Firm S i n m)
        (fun n => ReadAt S (.operand n) i m) r := by
    refine runs_bind (runs_firmOperand (runs_equality hx _) _) fun right o hr => ?_
    exact runs_pure ⟨fun _ _ => Nat.lt_trans hlt (hr.lt rfl), .inr (.operation hl hop hts hfirst hr)⟩
  have hidentity {l : Nat} (hkl : k ≤ l) (hl : ReadAt S (.operand left) i l) :
      Runs S (accept [.isKw] >>= fun b => if b then
          accept [.notKw] >>= fun b => if b then membershipRight expr "is not" left
            else membershipRight expr "is" left
        else pure (.inr left)) l fun r m => Sum.elim (fun n => (∀ e ∈ S.stop, k < m) ∧ Firm S i n m)
          (fun n => ReadAt S (.operand n) i m) r := by
    refine runs_ifTaken (fun t ht his => ?_) (runs_pure hl)
    refine runs_ifTaken (fun u hu hnot => ?_) ?_
    · refine hright (by omega) (.notIdentity his hnot) hl ?_ fun _ v hv => ?_
      · rw [restAt_eq_cons ht, restAt_eq_cons hu]
        rfl
      · cases hv
        simp [his]
    · refine hright (by omega) (.identity his) hl (restAt_eq_cons ht) fun _ v hv => ?_
      cases hv
      simp [his]
  refine runs_ifTaken (fun t ht hin => ?_) ?_
  · refine hright (Nat.lt_succ_self k) (.within hin) hleft.operand (restAt_eq_cons ht) fun _ v hv => ?_
    cases hv
    simp [hin]
  refine runs_bind (runs_accept _) ?_
  rintro b _ (⟨rfl, t, ht, -, hk, rfl⟩ | ⟨rfl, -, rfl⟩)
  · have hnot := mem_singleton.1 hk
    -- A negation in front would have been read as a sign, so there is an operand before this one.
    have hfirm : ReadAt S (.expression true left) i k := by
      rcases hleft with ⟨-, rfl, hsign⟩ | hleft
      · exact absurd hnot (hsign t ht).1
      · exact hleft
    refine runs_ifCheck (fun u hu hne hin => ?_) fun hnone => ?_
    · refine runs_step_bind hu hne ?_
      refine hright (by omega) (.notWithin hnot (mem_singleton.1 hin)) hleft.operand ?_ fun hmissing => ?_
      · rw [restAt_eq_cons ht, restAt_eq_cons hu]
        rfl
      · rw [hmissing] at hfirm
        cases hfirm.isPresent
    · refine hidentity (Nat.le_succ k) (.present (.stray hfirm (restAt_eq_cons ht) hnot fun u hu hin => ?_))
      have hget : S.tokens[k + 1]? = some u := by
        rwa [restAt, head?_drop, Array.getElem?_toList] at hu
      cases hin.symm.trans (hnone u hget (by simp [hin]))
  · exact hidentity (Nat.le_refl k) hleft.operand

theorem readsOperand_membership (hx : ReadsOperand (S.onward (S.start + 1)) expr) :
    ReadsOperand S (membership expr) := by
  intro i
  refine runs_bind (runs_equality hx i) fun first j hfirst => ?_
  exact runs_iterate (Firm S i) hfirst fun left k hleft => runs_membershipStep hx hleft

theorem readsOperand_logical (hnext : ReadsOperand S next)
    (hkind : kind = .andKw ∨ kind = .orKw) (complaint : String → String) :
    ReadsOperand S (leftAssoc next (acceptPastNewline [kind]) .logical complaint) := by
  intro i
  refine runs_bind (hnext i) fun first j hfirst => ?_
  refine runs_iterate (fun n m => ReadAt S (.operand n) i m) hfirst
    fun left k hleft => ?_
  refine runs_bind (runs_acceptPastNewline _) ?_
  rintro b _ ⟨l, hkl, hlines, ⟨rfl, t, ht, hk, rfl⟩ | ⟨rfl, rfl⟩⟩
  · have hk := mem_singleton.1 hk
    refine runs_previous_bind ht (runs_operand_bind hnext fun right m firm hright => ?_)
    have hlt := hright.lt rfl
    refine runs_pure ⟨fun _ _ => by omega, .present (.operation (hleft.operand_lines hlines) (.logical (hk ▸ hkind))
      (restAt_eq_cons ht) (fun _ v hv => ?_) hright)⟩
    cases hv
    rcases hkind with rfl | rfl <;> simp [hk]
  · exact runs_pure (hleft.operand_lines hlines)

/-! ### Whole expressions -/

theorem readsOperand_assigning (hx : ReadsOperand (S.onward (S.start + 1)) expr) : ReadsOperand S (assigning expr) := by
  intro i
  refine runs_found (readsOperand_logical (readsOperand_logical (readsOperand_membership hx) (.inl rfl) _) (.inr rfl) _)
    (fun m hm => runs_pure (.absent hm)) fun target j firm htarget => runs_of_holds fun hold => ?_
  refine runs_ifStep (fun t ht hk => ?_)
    (runs_ifCheck (fun t ht hne hk => runs_step_bind ht hne ?_) fun _ => runs_pure (.present htarget))
  · refine runs_inside hold (runs_operand_bind hx fun value m _ hvalue => ?_)
    exact runs_pure (.present (.assignment htarget (restAt_eq_cons ht) (.inl ⟨hk, rfl⟩) hvalue))
  · refine runs_inside hold (runs_operand_bind hx fun value m _ hvalue => ?_)
    exact runs_pure (.present (.assignment htarget (restAt_eq_cons ht) (.inr ⟨_, mem_compoundMarks hk, rfl⟩) hvalue))

/-- A budget above the number of tokens up to the end mark is enough: every nested expression lies behind a token. -/
theorem readsOperand_expressionWithin (n : Nat) {S : Tape W} (hn : S.Allows S.start n) :
    ReadsOperand S (expressionWithin n) := by
  induction n generalizing S with
  | zero =>
    refine fun i => runs_of_holds fun hold => runs_exhausted fun e he => ?_
    have := hold e he
    have := hn e he
    omega
  | succ n ih => exact readsOperand_assigning (ih (hn.next (Nat.lt_succ_self _)))

theorem runs_expression? : Runs S expression? i fun n m => ReadAt S (.operand n) i m := by
  refine runs_of_holds fun hold => runs_bind runs_budget ?_
  rintro n _ ⟨rfl, hn⟩
  exact (readsOperand_expressionWithin n (S := S.onward i) hn i).widen fun e he => ⟨(hold e he).1, Nat.le_refl i⟩

theorem runs_expression (i : Nat) : Runs S expression i fun n m => ∃ firm, ReadAt S (.expression firm n) i m := by
  refine runs_bind runs_peek ?_
  rintro _ _ ⟨rfl, -⟩
  refine runs_bind runs_expression? fun n m hn => ?_
  split
  · next hpresent => exact runs_pure (hn.exists_of_operand hpresent)
  · exact runs_bind runs_peek fun _ _ _ => runs_reject

theorem runs_payload (i : Nat) (complaint : String) :
    Runs S (operand (budget >>= fun n => postfixed (expressionWithin n)) complaint) i
      fun n m => ∃ firm, ReadAt S (.expression firm n) i m := by
  refine runs_of_holds fun hold => runs_bind (P := fun n m => ReadAt S (.operand n) i m) (runs_bind runs_budget ?_) ?_
  · rintro n _ ⟨rfl, hn⟩
    have hx : ReadsOperand ((S.onward i).onward (i + 1)) (expressionWithin n) :=
      readsOperand_expressionWithin n fun e he => Nat.lt_of_lt_of_le (hn e he) (Nat.add_le_add_right (Nat.le_succ i) n)
    refine Runs.widen (j := i) (runs_mono (runs_postfixed hx i) ?_) fun e he => ⟨(hold e he).1, Nat.le_refl i⟩
    rintro n m (⟨rfl, rfl⟩ | h)
    · exact .absent (.refl _ _)
    · exact .present h
  · intro n m hn
    split
    · next hpresent => exact runs_pure (hn.exists_of_operand hpresent)
    · exact runs_reject

end Parse

end BraceLang
