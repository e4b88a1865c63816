import BraceLang.Proofs.ExpressionTokens

/-!
# The tokens that an expression shows

An expression should show every token that was read for it, brackets, separators and ends of lines apart, and each of
its operators should have its operands.
-/

namespace BraceLang

open List

/-! ### Strays and gaps -/

def operandEnds : List TokenKind :=
  [.identifier, .trueKw, .falseKw, .noneKw, .number, .string, .fstring, .frstring, .regex, .rparen, .rbracket, .rbrace]

def silentKinds : List TokenKind :=
  [.newline, .lparen, .rparen, .lbracket, .rbracket, .lbrace, .rbrace, .comma, .colon, .dot]

/-- The kinds of the tokens that need an operand on their left.  A minus sign does not: it may be a sign. -/
def joiningKinds : List TokenKind := binaryKinds.erase .minus ++ [.andKw, .orKw, .inKw, .isKw]

/-- The kinds of the other tokens behind which an operand has to start. -/
def restartingKinds : List TokenKind :=
  [.lparen, .lbracket, .lbrace, .comma, .colon, .dot, .minus, .assign, .forKw, .ifKw] ++
    Parse.compoundMarks.map Prod.fst

namespace Token

def endsOperand (t : Token) : Bool := operandEnds.contains t.kind

def isShown (t : Token) : Bool := !silentKinds.contains t.kind

/-- Whether the token is a negation that belongs to nothing: it follows an operand, and no `in` follows it. -/
def isStray (t : Token) (behind : Bool) (rest : List Token) : Bool :=
  t.kind == .notKw && behind && !rest.head?.any (·.kind == .inKw)

end Token

/-- Whether the last token of a stretch ends an operand; the flag says it of the token in front of the stretch. -/
def standing (behind : Bool) (ts : List Token) : Bool := ts.foldl (fun _ t => t.endsOperand) behind

/-- Whether an operand has been read at the end of a stretch: ends of lines and negations may follow it. -/
def settled (behind : Bool) (ts : List Token) : Bool :=
  ts.foldl (fun b t => if t.kind = .newline ∨ t.kind = .notKw then b else t.endsOperand) behind

/-- The tokens of a stretch without the stray negations.  The flag says whether an operand ends in front of it. -/
def withoutStrays : Bool → List Token → List Token → List Token
  | _, [], _ => []
  | behind, t :: ts, rest =>
    (if t.isStray behind (ts ++ rest) then [] else [t]) ++ withoutStrays t.endsOperand ts rest

/-- In front of every token of a stretch that needs an operand on its left there is one. -/
def gapless : Bool → List Token → Bool
  | _, [] => true
  | behind, t :: ts => (behind || !joiningKinds.contains t.kind) && gapless (settled behind [t]) ts

section

variable {b : Bool} {c d r : List Token}

theorem standing_append : standing b (c ++ d) = standing (standing b c) d := foldl_append

theorem settled_append : settled b (c ++ d) = settled (settled b c) d := foldl_append

theorem withoutStrays_append :
    withoutStrays b (c ++ d) r = withoutStrays b c (d ++ r) ++ withoutStrays (standing b c) d r := by
  induction c generalizing b with
  | nil => rfl
  | cons t c ih =>
    simp only [cons_append, withoutStrays, ih, List.append_assoc]
    rfl

theorem gapless_append : gapless b (c ++ d) = (gapless b c && gapless (settled b c) d) := by
  induction c generalizing b with
  | nil => rfl
  | cons t c ih =>
    simp only [cons_append, gapless, ih, Bool.and_assoc]
    rfl

end

/-! ### Sweeping a stretch of tokens -/

/-- What has been read: whether an operand ends directly there, and whether one has been read at all. -/
structure Standing where
  behind : Bool
  filled : Bool

namespace Standing

/-- An operand has to start here. -/
def start : Standing := ⟨false, false⟩

/-- An operand ends here. -/
def done : Standing := ⟨true, true⟩

end Standing

/-- From `s` up to `r` the tokens `ts` are shown; the flag says whether there is no gap. -/
def Sweeps (x : Standing) (s ts : List Token) (ok : Bool) (y : Standing) (r : List Token) : Prop :=
  ∃ c, s = c ++ r ∧ (withoutStrays x.behind c r).filter Token.isShown = ts ∧ gapless x.filled c = ok ∧
    standing x.behind c = y.behind ∧ settled x.filled c = y.filled

namespace Sweeps

variable {x y z : Standing} {t u : Token} {s s₁ s₂ ts us r : List Token} {ok ok' : Bool}

theorem refl (x : Standing) (s : List Token) : Sweeps x s [] true x s := ⟨[], rfl, rfl, rfl, rfl, rfl⟩

theorem trans (h : Sweeps x s ts ok y s₁) (h' : Sweeps y s₁ us ok' z r) : Sweeps x s (ts ++ us) (ok && ok') z r := by
  obtain ⟨c, rfl, rfl, rfl, hbehind, hfilled⟩ := h
  obtain ⟨d, rfl, rfl, rfl, hbehind', hfilled'⟩ := h'
  refine ⟨c ++ d, (List.append_assoc ..).symm, ?_, ?_, ?_, ?_⟩
  · rw [withoutStrays_append, filter_append, hbehind]
  · rw [gapless_append, hfilled]
  · rw [standing_append, hbehind, hbehind']
  · rw [settled_append, hfilled, hfilled']

/-! Single tokens, by their kinds. -/

theorem token (hs : s = t :: r) (hstray : t.isStray x.behind r = false) :
    Sweeps x s (if t.isShown then [t] else []) (x.filled || !joiningKinds.contains t.kind)
      ⟨t.endsOperand, settled x.filled [t]⟩ r := by
  refine ⟨[t], hs, ?_, Bool.and_true _, rfl, rfl⟩
  cases h : t.isShown <;> simp [withoutStrays, hstray, h]

theorem stray (hs : s = t :: r) (hk : t.kind = .notKw) (hx : x.behind) (hnext : ∀ u ∈ r.head?, u.kind ≠ .inKw) :
    Sweeps x s [] true ⟨false, x.filled⟩ r := by
  have hstray : t.isStray x.behind r := by
    cases h : r.head? with
    | none => simp [Token.isStray, hk, hx, h]
    | some u => simp [Token.isStray, hk, hx, h, hnext u h]
  refine ⟨[t], hs, ?_, ?_, ?_, ?_⟩
  · simp [withoutStrays, hstray]
  · simp [gapless, hk, joiningKinds, binaryKinds]
  · simp [standing, Token.endsOperand, hk, operandEnds]
  · simp [settled, hk]

theorem negation (hs : s = t :: r) (hk : t.kind = .notKw) (h : x.behind = false ∨ ∃ u ∈ r.head?, u.kind = .inKw) :
    Sweeps x s [t] true ⟨false, x.filled⟩ r := by
  have hstray : t.isStray x.behind r = false := by
    rcases h with h | ⟨u, hu, hin⟩
    · simp [Token.isStray, h]
    · simp [Token.isStray, Option.mem_def.1 hu, hin]
  have htoken := token hs hstray
  simpa [Token.isShown, silentKinds, joiningKinds, binaryKinds, Token.endsOperand, operandEnds, settled,
    hk] using htoken

theorem restart (hs : s = t :: r) (hk : t.kind ∈ restartingKinds) :
    Sweeps x s (if t.isShown then [t] else []) true .start r := by
  have hkinds : ∀ k ∈ restartingKinds, k ∉ joiningKinds ∧ k ≠ .newline ∧ k ≠ .notKw ∧ k ∉ operandEnds := by decide
  obtain ⟨hjoining, hnewline, hnot, hends⟩ := hkinds _ hk
  have htoken := token (x := x) hs (by simp [Token.isStray, hnot])
  simpa [Standing.start, settled, Token.endsOperand, hjoining, hnewline, hnot, hends] using htoken

theorem join (hs : s = t :: r) (hk : t.kind ∈ joiningKinds) : Sweeps x s [t] x.filled .start r := by
  have hkinds : ∀ k ∈ joiningKinds, k ∉ silentKinds ∧ k ≠ .newline ∧ k ≠ .notKw ∧ k ∉ operandEnds := by decide
  obtain ⟨hsilent, hnewline, hnot, hends⟩ := hkinds _ hk
  have htoken := token (x := x) hs (by simp [Token.isStray, hnot])
  simpa [Standing.start, settled, Token.isShown, Token.endsOperand, hk, hsilent, hnewline, hnot, hends] using htoken

theorem finish (hs : s = t :: r) (hk : t.kind ∈ operandEnds) :
    Sweeps x s (if t.isShown then [t] else []) true .done r := by
  have hkinds : ∀ k ∈ operandEnds, k ∉ joiningKinds ∧ k ≠ .newline ∧ k ≠ .notKw := by decide
  obtain ⟨hjoining, hnewline, hnot⟩ := hkinds _ hk
  have htoken := token (x := x) hs (by simp [Token.isStray, hnot])
  simpa [Standing.done, settled, Token.endsOperand, hjoining, hnewline, hnot, hk] using htoken

theorem name (hs : s = t :: r) (hk : t.kind = .identifier) : Sweeps x s [t] true .done r := by
  have hname := finish (x := x) hs (by rw [hk]; decide)
  rwa [if_pos (by simp [Token.isShown, hk, silentKinds])] at hname

theorem skipped (h : Skips kinds s r) (hkinds : ∀ k ∈ kinds, k = .newline ∨ k = .comma := by simp) :
    ∃ y, Sweeps x s [] true y r ∧ (x = .start → y = .start) ∧ (.comma ∉ kinds → y.filled = x.filled) := by
  obtain ⟨c, rfl, hc⟩ := h
  induction c generalizing x with
  | nil => exact ⟨x, refl x r, id, fun _ => rfl⟩
  | cons t c ih =>
    have ih' := fun x => ih (x := x) fun u hu => hc u (mem_cons_of_mem _ hu)
    have ht := hc t (mem_cons_self ..)
    rcases hkinds _ ht with hk | hk
    · have hline := token (x := x) (t := t) (r := c ++ r) rfl (by simp [Token.isStray, hk])
      simp only [Token.isShown, Token.endsOperand, settled, foldl_cons, foldl_nil, hk, true_or, if_true] at hline
      obtain ⟨y, hy, hstart, hfilled⟩ := ih' ⟨false, x.filled⟩
      refine ⟨y, ?_, ?_, hfilled⟩
      · simpa [silentKinds, joiningKinds, binaryKinds] using hline.trans hy
      · rintro rfl
        exact hstart rfl
    · obtain ⟨y, hy, hstart, -⟩ := ih' .start
      have hcomma := restart (x := x) (s := t :: (c ++ r)) rfl (by rw [hk]; decide)
      rw [if_neg (by simp [Token.isShown, hk, silentKinds])] at hcomma
      exact ⟨y, hcomma.trans hy, fun _ => hstart rfl, fun h => absurd (hk ▸ ht) h⟩

/-! Stretches with a token between them, and stretches in brackets. -/

theorem divided (h : Sweeps x s ts ok y s₁) (hs₁ : s₁ = t :: s₂) (ht : t.kind = kind)
    (h' : Sweeps .start s₂ us ok' z r) (hkind : kind ∈ restartingKinds ∧ kind ∈ silentKinds := by decide) :
    Sweeps x s (ts ++ us) (ok && ok') z r := by
  have htoken := restart (x := y) hs₁ (ht ▸ hkind.1)
  rw [if_neg (by simp [Token.isShown, ht, hkind.2])] at htoken
  exact h.trans (htoken.trans h')

theorem marked (h : Sweeps x s ts ok y s₁) (hs₁ : s₁ = t :: s₂) (ht : t.kind = kind)
    (h' : Sweeps .start s₂ us ok' z r) (hkind : kind ∈ restartingKinds ∧ kind ∉ silentKinds := by decide) :
    Sweeps x s (ts ++ t :: us) (ok && ok') z r := by
  have htoken := restart (x := y) hs₁ (ht ▸ hkind.1)
  rw [if_pos (by simpa [Token.isShown, ht] using hkind.2)] at htoken
  exact h.trans (htoken.trans h')

theorem enclosed {k : Bracket} (hs : s = t :: s₁) (ht : t.kind = k.opening.kind) (h : Sweeps .start s₁ ts ok y s₂)
    (hs₂ : s₂ = u :: r) (hu : u.kind = k.closing.kind) : Sweeps x s ts ok .done r := by
  have hkinds : k.opening.kind ∈ restartingKinds ∧ k.opening.kind ∈ silentKinds ∧
      k.closing.kind ∈ operandEnds ∧ k.closing.kind ∈ silentKinds := by cases k <;> decide
  have hopening := restart (x := x) hs (ht ▸ hkinds.1)
  have hclosing := finish (x := y) hs₂ (hu ▸ hkinds.2.2.1)
  rw [if_neg (by simp [Token.isShown, ht, hkinds])] at hopening
  rw [if_neg (by simp [Token.isShown, hu, hkinds])] at hclosing
  simpa using hopening.trans (h.trans hclosing)

end Sweeps

/-- An operator is shown as it is.  There is a gap in front of it if no operand stands there and it is no sign. -/
theorem OperatorTokens.sweeps (h : OperatorTokens build ts) (hs : s = ts ++ r)
    (hfirst : x.filled = false → ∀ t ∈ ts.head?, t.kind ≠ .notKw ∧ t.kind ≠ .minus) :
    Sweeps x s ts x.filled .start r := by
  -- A sign can only be read where an operand has been read before.
  have hsign : ∀ {t : Token}, t ∈ ts.head? → t.kind = .notKw ∨ t.kind = .minus → x.filled := by
    intro t ht hk
    cases hx : x.filled with
    | true => rfl
    | false => exact absurd hk (by simp [hfirst hx t ht])
  cases h with
  | @binary t hk =>
    by_cases hminus : t.kind = .minus
    · have hrestart := Sweeps.restart (x := x) hs (by rw [hminus]; decide)
      rw [if_pos (by simp [Token.isShown, hminus, silentKinds])] at hrestart
      rwa [hsign rfl (.inr hminus)]
    · have hkinds : ∀ k ∈ binaryKinds, k ≠ .minus → k ∈ joiningKinds := by decide
      exact .join hs (hkinds _ hk hminus)
  | logical hk => exact .join hs (by rcases hk with h | h <;> rw [h] <;> decide)
  | within hk | identity hk => exact .join hs (by rw [hk]; decide)
  | @notWithin t u ht hu =>
    have hnegation := Sweeps.negation (x := x) hs ht (.inr ⟨u, rfl, hu⟩)
    exact hnegation.trans (.join rfl (by rw [hu]; decide))
  | @notIdentity t u ht hu =>
    have hidentity := Sweeps.join (x := x) hs (by rw [ht]; decide)
    have hboth := hidentity.trans (.negation rfl hu (.inl rfl))
    rwa [Bool.and_true] at hboth

/-! ### What an expression shows -/

mutual

/-- The tokens are those of the names, literals and operators of the expression, from left to right. -/
inductive Shows : Node → List Token → Prop
  | missing : Shows .missing []
  | identifier {t : Token} (hk : t.kind = .identifier) : Shows (.identifier t.text) [t]
  | truth {b : Bool} {t : Token} (hk : t.kind = if b then .trueKw else .falseKw) :
      Shows (.literal (.truth b) .boolean) [t]
  | nothing {t : Token} (hk : t.kind = .noneKw) : Shows (.literal .absent .none) [t]
  | literal {t : Token} {kind : LiteralKind} (hk : (t.kind, kind) ∈ Parse.literalKinds) :
      Shows (.literal (t.value.elim .absent .text) kind) [t]
  | collection (h : ShowsAll items ts) : Shows (.collection items kind) ts
  | comprehension {element target source key : Node} {kind : ComprehensionKind} {t u : Token}
      {ks es ts ss : List Token} (hkey : Shows key ks) (helement : Shows element es) (ht : t.kind = .forKw)
      (htarget : Shows target ts) (hu : u.kind = .inKw) (hsource : Shows source ss) :
      Shows (.comprehension element target source .missing kind key) (ks ++ es ++ t :: ts ++ u :: ss)
  | selection {element target source condition key : Node} {kind : ComprehensionKind} {t u v : Token}
      {ks es ts ss cs : List Token} (hkey : Shows key ks) (helement : Shows element es) (ht : t.kind = .forKw)
      (htarget : Shows target ts) (hu : u.kind = .inKw) (hsource : Shows source ss) (hv : v.kind = .ifKw)
      (hcondition : Shows condition cs) :
      Shows (.comprehension element target source condition kind key) (ks ++ es ++ t :: ts ++ u :: ss ++ v :: cs)
  | member {object : Node} {t : Token} {ts : List Token} (h : Shows object ts) (hk : t.kind = .identifier) :
      Shows (.member object t.text) (ts ++ [t])
  | call (h : Shows callee ts) (harguments : ShowsAll arguments us) : Shows (.call callee arguments) (ts ++ us)
  | subscript (h : Shows object ts) (hindex : Shows index us) : Shows (.subscript object index) (ts ++ us)
  | slice (hstart : Shows start ts) (hstop : Shows stop us) (hstep : Shows step vs) :
      Shows (.slice start stop step) (ts ++ us ++ vs)
  | argument {value : Node} {t u : Token} {ts : List Token} (ht : t.kind = .identifier) (hu : u.kind = .assign)
      (h : Shows value ts) : Shows (.argument (some t.text) value) (t :: u :: ts)
  | entry (hkey : Shows key ts) (hvalue : Shows value us) : Shows (.entry key value) (ts ++ us)
  | unary {operand : Node} {t : Token} {ts : List Token} (hk : t.kind = .notKw ∨ t.kind = .minus)
      (h : Shows operand ts) : Shows (.unary t.text operand) (t :: ts)
  | operation (hleft : Shows left ts) (hop : OperatorTokens build os) (hright : Shows right us) :
      Shows (build left right) (ts ++ os ++ us)
  | assignment (htarget : Shows target ts) (hop : IsMark t op) (hvalue : Shows value us) :
      Shows (.assignment target value op none ⟨t.line, t.column⟩) (ts ++ t :: us)

inductive ShowsAll : List Node → List Token → Prop
  | nil : ShowsAll [] []
  | snoc {ns : List Node} {n : Node} {ts us : List Token} (h : ShowsAll ns ts) (hn : Shows n us) :
      ShowsAll (ns ++ [n]) (ts ++ us)

end

end BraceLang
