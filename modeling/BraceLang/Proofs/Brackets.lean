import BraceLang.Proofs.ExpressionTokens

/-!
# Brackets

A list of tokens is balanced if every bracket in it is closed by its partner and the brackets are properly nested.
-/

namespace BraceLang

open List

def bracketKinds : List TokenKind := [.lparen, .rparen, .lbracket, .rbracket, .lbrace, .rbrace, .atParen]

namespace Token

/-- The bracket that a token opens.  The mark `@(` opens one too. -/
def opened? (t : Token) : Option Bracket :=
  match t.kind with
  | .lparen | .atParen => some .round
  | .lbracket => some .square
  | .lbrace => some .curly
  | _ => none

def closed? (t : Token) : Option Bracket :=
  match t.kind with
  | .rparen => some .round
  | .rbracket => some .square
  | .rbrace => some .curly
  | _ => none

/-- The open brackets behind a token, the last one first, if the token closes none but the last one before it. -/
def nest (stack : List Bracket) (t : Token) : Option (List Bracket) :=
  match t.opened?, t.closed? with
  | some b, _ => some (b :: stack)
  | none, some b => if stack.head? = some b then some stack.tail else none
  | none, none => some stack

end Token

def nesting (stack : List Bracket) (ts : List Token) : Option (List Bracket) := ts.foldlM Token.nest stack

/-- The brackets are properly nested, and all of them are closed. -/
def Balanced (ts : List Token) : Prop := nesting [] ts = some []

instance (ts : List Token) : Decidable (Balanced ts) := inferInstanceAs (Decidable (_ = _))

section

variable {stack stack' : List Bracket} {t u : Token} {c d s s₁ s₂ r : List Token} {b : Bracket}

theorem nest_plain (hk : t.kind ∉ bracketKinds) : t.nest stack = some stack := by
  have hopened : t.opened? = none := by
    unfold Token.opened?
    split <;> simp_all [bracketKinds]
  have hclosed : t.closed? = none := by
    unfold Token.closed?
    split <;> simp_all [bracketKinds]
  simp [Token.nest, hopened, hclosed]

theorem nest_opening (ht : t.kind = b.opening.kind) : t.nest stack = some (b :: stack) := by
  have hopened : t.opened? = some b := by cases b <;> simp [Token.opened?, ht, Bracket.opening]
  simp [Token.nest, hopened]

theorem nest_closing (hu : u.kind = b.closing.kind) : u.nest (b :: stack) = some stack := by
  have hopened : u.opened? = none := by cases b <;> simp [Token.opened?, hu, Bracket.closing]
  have hclosed : u.closed? = some b := by cases b <;> simp [Token.closed?, hu, Bracket.closing]
  simp [Token.nest, hopened, hclosed]

theorem nest_append (h : t.nest stack = some stack') (base : List Bracket) :
    t.nest (stack ++ base) = some (stack' ++ base) := by
  unfold Token.nest at h ⊢
  split at h
  · cases h
    rfl
  · split at h
    · next hhead =>
      cases h
      cases stack with
      | nil => cases hhead
      | cons => simpa using hhead
    · cases h
  · cases h
    rfl

theorem nesting_append (h : nesting stack c = some stack') (base : List Bracket) :
    nesting (stack ++ base) c = some (stack' ++ base) := by
  induction c generalizing stack with
  | nil =>
    cases h
    rfl
  | cons t c ih =>
    obtain ⟨next, hnext, hrest⟩ := Option.bind_eq_some_iff.1 h
    exact Option.bind_eq_some_iff.2 ⟨next ++ base, nest_append hnext base, ih hrest⟩

namespace Balanced

theorem nesting_eq (h : Balanced c) (stack : List Bracket) : nesting stack c = some stack := nesting_append h stack

theorem nil : Balanced [] := rfl

theorem append (hc : Balanced c) (hd : Balanced d) : Balanced (c ++ d) := by
  rw [Balanced, nesting, foldlM_append]
  exact Option.bind_eq_some_iff.2 ⟨[], hc, hd⟩

theorem singleton (hk : t.kind ∉ bracketKinds) : Balanced [t] := by
  rw [Balanced, nesting, foldlM_cons, nest_plain hk]
  rfl

theorem of_plain (hc : ∀ t ∈ c, t.kind ∉ bracketKinds) : Balanced c := by
  induction c with
  | nil => exact nil
  | cons t c ih =>
    have ht : Balanced [t] := singleton (hc t (mem_cons_self ..))
    exact ht.append (ih fun u hu => hc u (mem_cons_of_mem _ hu))

theorem enclosed (ht : t.kind = b.opening.kind) (hc : Balanced c) (hu : u.kind = b.closing.kind) :
    Balanced (t :: c ++ [u]) := by
  have hinside : nesting [b] (c ++ [u]) = some [] := by
    rw [nesting, foldlM_append]
    refine Option.bind_eq_some_iff.2 ⟨[b], hc.nesting_eq [b], ?_⟩
    rw [foldlM_cons, nest_closing hu]
    rfl
  exact Option.bind_eq_some_iff.2 ⟨[b], nest_opening ht, hinside⟩

end Balanced

def Spans (s r : List Token) : Prop := ∃ c, s = c ++ r ∧ Balanced c

namespace Spans

theorem refl (s : List Token) : Spans s s := ⟨[], rfl, .nil⟩

theorem trans (h : Spans s s₁) (h' : Spans s₁ r) : Spans s r := by
  obtain ⟨c, rfl, hc⟩ := h
  obtain ⟨d, rfl, hd⟩ := h'
  exact ⟨c ++ d, (List.append_assoc ..).symm, hc.append hd⟩

theorem token (hs : s = t :: r) (hk : t.kind ∉ bracketKinds) : Spans s r := ⟨[t], hs, .singleton hk⟩

theorem of_skips (h : Skips kinds s r) (hkinds : ∀ k ∈ kinds, k ∉ bracketKinds) : Spans s r := by
  obtain ⟨c, rfl, hc⟩ := h
  exact ⟨c, rfl, .of_plain fun t ht => hkinds _ (hc t ht)⟩

theorem enclosed (hs : s = t :: s₁) (ht : t.kind = b.opening.kind) (h : Spans s₁ s₂) (hs₂ : s₂ = u :: r)
    (hu : u.kind = b.closing.kind) : Spans s r := by
  obtain ⟨c, rfl, hc⟩ := h
  exact ⟨t :: c ++ [u], by simp [hs, hs₂], hc.enclosed ht hu⟩

end Spans

theorem OperatorTokens.spans (h : OperatorTokens build ts) (hs : s = ts ++ r) : Spans s r := by
  cases h with
  | @binary t hk =>
    have hkinds : ∀ k ∈ binaryKinds, k ∉ bracketKinds := by decide
    exact .token hs (hkinds _ hk)
  | logical hk => exact .token hs (by rcases hk with h | h <;> simp [h, bracketKinds])
  | within hk | identity hk => exact .token hs (by simp [hk, bracketKinds])
  | @notWithin t u ht hu | @notIdentity t u ht hu =>
    exact (Spans.token hs (by simp [ht, bracketKinds])).trans
      (.token rfl (by simp [hu, bracketKinds]))

theorem IsMark.notMem_bracketKinds (h : IsMark t op) : t.kind ∉ bracketKinds := by
  rcases h with ⟨hk, -⟩ | ⟨text, hk, -⟩
  · simp [hk, bracketKinds]
  · have hmarks : ∀ mark ∈ Parse.compoundMarks, mark.1 ∉ bracketKinds := by decide
    exact hmarks _ hk

theorem Consumes.spans (h : Consumes part s r) : Spans s r := by
  induction h with
  | identifier hs hk | nothing hs hk => exact .token hs (by simp [hk, bracketKinds])
  | @truth _ _ _ b hs hk => exact .token hs (by cases b <;> simp [hk, bracketKinds])
  | literal hs hk =>
    have hkinds : ∀ p ∈ Parse.literalKinds, p.1 ∉ bracketKinds := by decide
    exact .token hs (hkinds _ hk)
  | collection _ _ ih | present _ ih | plainItem _ _ ih | oneItem _ ih | plainIndex _ ih | plainElement _ ih => exact ih
  | parenthesized hs ht _ hs₂ hu ih => exact .enclosed (b := .round) hs ht ih hs₂ hu
  | comprehension hs ht _ hs₂ hu ih => exact .enclosed hs ht ih hs₂ hu
  | member _ hs₁ ht hs₂ hu ih =>
    exact (ih.trans (.token hs₁ (by simp [ht, bracketKinds]))).trans (.token hs₂ (by simp [hu, bracketKinds]))
  | call _ _ ih iharguments => exact ih.trans iharguments
  | subscript _ hs₁ ht _ hs₃ hu ih ihindex => exact ih.trans (.enclosed (b := .square) hs₁ ht ihindex hs₃ hu)
  | unary hs hk _ ih =>
    exact (Spans.token hs (by rcases hk with h | h <;> simp [h, bracketKinds])).trans ih
  | operation _ hop hs₁ _ _ ihleft ihright => exact (ihleft.trans (hop.spans hs₁)).trans ihright
  | assignment _ hs₁ hop _ ihtarget ihvalue => exact (ihtarget.trans (.token hs₁ hop.notMem_bracketKinds)).trans ihvalue
  | lines _ hlines ih => exact ih.trans (.of_skips hlines (by decide))
  | stray _ hs₁ hk _ ih => exact ih.trans (.token hs₁ (by simp [hk, bracketKinds]))
  | absent hlines => exact .of_skips hlines (by decide)
  | namedItem hs ht hs₁ hu _ ih =>
    exact ((Spans.token hs (by simp [ht, bracketKinds])).trans (.token hs₁ (by simp [hu, bracketKinds]))).trans ih
  | entryItem _ hs₁ ht _ ihkey ih | keyedElement _ hs₁ ht _ ihkey ih | range _ hs₁ ht _ ihkey ih =>
    exact (ihkey.trans (.token hs₁ (by simp [ht, bracketKinds]))).trans ih
  | noItems | noCondition => exact .refl _
  | moreItems _ hs₁ ht hlines _ ih ihitem =>
    have hcomma := ih.trans (.token hs₁ (by simp [ht, bracketKinds]))
    exact (hcomma.trans (.of_skips hlines (by decide))).trans ihitem
  | group hs ht hlines _ hend hs₄ hu ih =>
    exact .enclosed hs ht (((Spans.of_skips hlines (by decide)).trans ih).trans (.of_skips hend (by decide))) hs₄ hu
  | stepped _ hs₁ ht _ hs₃ hu _ ihstart ihstop ihstep =>
    have hfirst := (ihstart.trans (.token hs₁ (by simp [ht, bracketKinds]))).trans ihstop
    exact (hfirst.trans (.token hs₃ (by simp [hu, bracketKinds]))).trans ihstep
  | condition hs ht _ ih => exact (Spans.token hs (by simp [ht, bracketKinds])).trans ih
  | clauses _ hs₁ ht _ hs₃ hu _ _ _ ihelement ihtarget ihsource ihcondition =>
    have hfirst := (ihelement.trans (.token hs₁ (by simp [ht, bracketKinds]))).trans ihtarget
    exact ((hfirst.trans (.token hs₃ (by simp [hu, bracketKinds]))).trans ihsource).trans ihcondition

end

end BraceLang
