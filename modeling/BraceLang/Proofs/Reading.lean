import BraceLang.Grammar.Expression
import BraceLang.Proofs.Formula

/-!
# Reading operators

Two statements say that the rule of a level understands a list of words as a node, whatever stands around them:
-/

namespace BraceLang

open List

variable {n : Node} {vs ws : List Word} {L M : Level} {kind : TokenKind} {tokens : Array Token} {i j l m : Nat}
  {build : String → Node → Node → Node} {complaint : String → String} {kinds : List TokenKind} {w : Word}
  {left right : Node} {us : List Word}

def pastNewline (tokens : Array Token) (i : Nat) : Nat :=
  if tokens[i]?.map Token.kind = some .newline then i + 1 else i

def Ends (tokens : Array Token) (kinds : List TokenKind) (i : Nat) : Prop :=
  ∃ kind, KindAt tokens i kind ∧ kind ∉ kinds

section

theorem pastNewline_of_kindAt (h : KindAt tokens i kind) (hk : kind ≠ .newline) : pastNewline tokens i = i := by
  obtain ⟨t, ht, rfl⟩ := h
  unfold pastNewline
  rw [ht, if_neg]
  simpa using hk

theorem pastNewline_newline (h : KindAt tokens i .newline) : pastNewline tokens i = i + 1 := by
  obtain ⟨t, ht, hk⟩ := h
  unfold pastNewline
  rw [ht, if_pos]
  simpa using hk

theorem Lines.pastNewline (h : Lines tokens i j) (hk : KindAt tokens j kind) (hne : kind ≠ .newline) :
    pastNewline tokens i = min (i + 1) j := by
  rcases Nat.lt_or_eq_of_le h.1 with hlt | rfl
  · rw [pastNewline_newline (h.2 i (Nat.le_refl i) hlt), Nat.min_eq_left hlt]
  · rw [pastNewline_of_kindAt hk hne, Nat.min_eq_right (Nat.le_succ i)]

theorem Lines.ends (h : Lines tokens i j) (hk : KindAt tokens j kind)
    (hkind : kind ∉ kinds) (hline : .newline ∉ kinds) : Ends tokens kinds i := by
  rcases Nat.lt_or_eq_of_le h.1 with hlt | rfl
  · exact ⟨_, h.2 i (Nat.le_refl i) hlt, hline⟩
  · exact ⟨kind, hk, hkind⟩

theorem le_pastNewline : i ≤ pastNewline tokens i := by
  unfold pastNewline
  split <;> omega

theorem Ends.mono (h : Ends tokens kinds i) (hsub : ∀ k ∈ kinds', k ∈ kinds) : Ends tokens kinds' i := by
  obtain ⟨k, hk, hn⟩ := h
  exact ⟨k, hk, fun hm => hn (hsub k hm)⟩

end

namespace Level

open Parse

def rule (expr : Parse Node) : Level → Parse Node
  | disjunction => Parse.disjunction expr
  | conjunction => Parse.conjunction expr
  | membership => Parse.membership expr
  | equality => Parse.equality expr
  | comparison => Parse.comparison expr
  | sum => Parse.sum expr
  | product => Parse.product expr
  | power => do Parse.power expr (← budget)
  | sign => do unary expr (← budget)
  | access => postfixed expr
  | primary => Parse.primary expr false

def step (expr : Parse Node) : Level → Node → Parse (Node ⊕ Node)
  | disjunction => operatorStep (Parse.conjunction expr) (acceptPastNewline [.orKw]) .logical
      fun _ => noOperandAfter "or"
  | conjunction => operatorStep (Parse.membership expr) (acceptPastNewline [.andKw]) .logical
      fun _ => noOperandAfter "and"
  | membership => membershipStep expr
  | equality => operatorStep (Parse.comparison expr) (accept [.equal, .notEqual]) .binary noOperandAfter
  | comparison => operatorStep (Parse.sum expr) (accept [.less, .greater, .lessEqual, .greaterEqual]) .binary
      noOperandAfter
  | sum => operatorStep (Parse.product expr) (accept [.plus, .minus]) .binary noOperandAfter
  | product => operatorStep (do Parse.power expr (← budget)) (accept [.star, .slash, .percent, .doubleSlash]) .binary
      noOperandAfter
  | access => postfixStep expr
  | power | sign | primary => fun n => pure (.inr n)

/-- Whether a level has a loop over operators between operands of the next level. -/
def isChain : Level → Bool
  | power | sign | access | primary => false
  | _ => true

def Loops (L : Level) : Prop := L.isChain = true ∨ L = access

instance (L : Level) : Decidable L.Loops := inferInstanceAs (Decidable (_ ∨ _))

/-- The kinds of token that go on with an expression at the level itself.  Two levels look past an end of line. -/
def operators : Level → List TokenKind
  | disjunction => [.orKw, .newline]
  | conjunction => [.andKw, .newline]
  | membership => [.inKw, .notKw, .isKw]
  | equality => [.equal, .notEqual]
  | comparison => [.less, .greater, .lessEqual, .greaterEqual]
  | sum => [.plus, .minus]
  | product => [.star, .slash, .percent, .doubleSlash]
  | power => [.doubleStar]
  | access => [.dot, .lparen, .lbracket]
  | sign | primary => []

/-- The kinds of token that go on with an expression of the level, at the level itself or at a tighter one. -/
def marks (L : Level) : List TokenKind :=
  ([disjunction, conjunction, membership, equality, comparison, sum, product, power, access].filter
    fun M => L.rank ≤ M.rank).flatMap operators

theorem operators_marks (L : Level) : ∀ kind ∈ L.operators, kind ∈ L.marks := by
  cases L <;> decide

theorem marks_next (L : Level) : ∀ kind ∈ L.next.marks, kind ∈ L.marks := by
  cases L <;> decide

end Level

/-- An expression of the level that ends at the index `j` is left with the cursor at `k`. -/
def Stops (tokens : Array Token) : Level → Nat → Nat → Prop
  | .primary, j, k => j = k
  | .conjunction, j, k => Ends tokens Level.membership.marks j ∧ pastNewline tokens j = k ∧ Ends tokens [.andKw] k
  | .disjunction, j, k =>
    Ends tokens Level.membership.marks j ∧ Ends tokens [.andKw] (pastNewline tokens j) ∧
      pastNewline tokens (pastNewline tokens j) = k ∧ Ends tokens [.orKw] k
  | L, j, k => j = k ∧ Ends tokens L.marks j

section

variable {k : Nat} {left right : Node}

theorem Stops.le (h : Stops tokens L j k) : j ≤ k := by
  cases L with
  | disjunction => rw [← h.2.2.1]; exact Nat.le_trans le_pastNewline le_pastNewline
  | conjunction => rw [← h.2.1]; exact le_pastNewline
  | primary => exact Nat.le_of_eq h
  | _ => exact Nat.le_of_eq h.1

theorem stops_of_kindAt (h : KindAt tokens j kind) (hk : kind ∉ L.marks) : Stops tokens L j j := by
  have hends : ∀ kinds : List TokenKind, (∀ k ∈ kinds, k ∈ L.marks) → Ends tokens kinds j :=
    fun kinds hsub => ⟨kind, h, fun hm => hk (hsub kind hm)⟩
  cases L with
  | primary => rfl
  | conjunction =>
    have hpast : pastNewline tokens j = j := pastNewline_of_kindAt h fun e => hk (by rw [e]; decide)
    exact ⟨hends _ (by decide), hpast, hends _ (by decide)⟩
  | disjunction =>
    have hpast : pastNewline tokens j = j := pastNewline_of_kindAt h fun e => hk (by rw [e]; decide)
    show _ ∧ _ ∧ _ ∧ _
    rw [hpast, hpast]
    exact ⟨hends _ (by decide), hends _ (by decide), rfl, hends _ (by decide)⟩
  | _ => exact ⟨rfl, hends _ fun _ hm => hm⟩

/-- In front of ends of line an expression steps over at most two of them. -/
theorem stops_of_lines (h : Lines tokens j l) (hk : KindAt tokens l kind) (hkind : kind ∉ [.newline, .andKw, .orKw])
    (hfirst : j = l → kind ∉ Level.membership.marks) : Stops tokens .disjunction j (min (j + 2) l) := by
  have hle := h.1
  have hne : kind ≠ .newline ∧ kind ∉ [.andKw] ∧ kind ∉ [.orKw] := by simpa using hkind
  have hpast := h.within (k := min (j + 1) l) (by omega) (by omega) (Nat.le_refl l)
  have hpast' := h.within (k := min (j + 2) l) (by omega) (by omega) (Nat.le_refl l)
  refine ⟨?_, ?_, ?_, hpast'.ends hk hne.2.2 (by decide)⟩
  · rcases Nat.lt_or_eq_of_le hle with hlt | rfl
    · exact ⟨_, h.2 j (Nat.le_refl j) hlt, by decide⟩
    · exact ⟨kind, hk, hfirst rfl⟩
  · rw [h.pastNewline hk hne.1]
    exact hpast.ends hk hne.2.1 (by decide)
  · rw [h.pastNewline hk hne.1, hpast.pastNewline hk hne.1]
    omega

/-! ### Rounds of a level -/

open Parse

theorem acceptPastNewline_ok (h : KindAt tokens j kind) :
    acceptPastNewline kinds tokens j = accept kinds tokens (pastNewline tokens j) := by
  unfold acceptPastNewline
  by_cases hk : kind = .newline
  · subst hk
    rw [pastNewline_newline h, bind_ok (check_hit h ⟨by decide, mem_singleton.2 rfl⟩)]
    obtain ⟨t, ht, hk⟩ := h
    show (advance >>= fun _ => accept kinds) tokens j = _
    rw [bind_ok (advance_ok ht (by rw [hk]; decide))]
  · rw [pastNewline_of_kindAt h hk, bind_ok (check_miss h (by simpa using hk))]
    rfl

variable {expr next : Parse Node} {operator : Parse Bool}

theorem operatorStep_stop (h : operator tokens j = .ok false k) :
    operatorStep next operator build complaint n tokens j = .ok (.inr n) k := by
  unfold operatorStep
  rw [bind_ok h]
  rfl

theorem step_of_stops (expr : Parse Node) (n : Node) (hL : L.Loops)
    (h : Stops tokens L j k) : ∃ m, Stops tokens L.next j m ∧ L.step expr n tokens m = .ok (.inr n) k := by
  -- an operator that is not there is not stepped over, with or without an end of line before it
  have hplain : ∀ {kinds : List TokenKind}, Ends tokens kinds j → accept kinds tokens j = .ok false j :=
    fun ⟨_, hk, hn⟩ => accept_miss hk hn
  have hpast : ∀ {kinds : List TokenKind} {m : Nat} {first : List TokenKind}, Ends tokens first m →
      Ends tokens kinds (pastNewline tokens m) →
      acceptPastNewline kinds tokens m = .ok false (pastNewline tokens m) := by
    intro kinds m first ⟨_, hm, _⟩ ⟨_, hk, hn⟩
    rw [acceptPastNewline_ok hm, accept_miss hk hn]
  cases L with
  | disjunction =>
    obtain ⟨h1, h2, rfl, h3⟩ := h
    refine ⟨pastNewline tokens j, ⟨h1, rfl, h2⟩, ?_⟩
    rw [Level.step]
    exact operatorStep_stop (hpast h2 h3)
  | conjunction =>
    obtain ⟨h1, rfl, h2⟩ := h
    refine ⟨j, ⟨rfl, h1⟩, ?_⟩
    rw [Level.step]
    exact operatorStep_stop (hpast h1 h2)
  | membership =>
    obtain ⟨rfl, h⟩ := h
    refine ⟨j, ⟨rfl, h.mono (Level.marks_next _)⟩, ?_⟩
    have hmiss : ∀ kind ∈ Level.membership.operators, accept [kind] tokens j = .ok false j := by
      intro kind hkind
      refine hplain (h.mono fun k hk => ?_)
      rw [mem_singleton.1 hk]
      exact Level.operators_marks _ kind hkind
    rw [Level.step, membershipStep, bind_ok (hmiss .inKw (by decide)), if_neg (by decide),
      bind_ok (hmiss .notKw (by decide))]
    show (accept [.isKw] >>= _) tokens j = _
    rw [bind_ok (hmiss .isKw (by decide))]
    rfl
  | access =>
    obtain ⟨rfl, kind, hk, hn⟩ := h
    refine ⟨j, rfl, ?_⟩
    have hne (k : TokenKind) (hmark : k ∈ Level.access.marks) : kind ∉ [k] :=
      fun hm => hn (mem_singleton.1 hm ▸ hmark)
    rw [Level.step, postfixStep, ifAccept_miss hk (hne _ (by decide)), ifAccept_miss hk (hne _ (by decide)),
      ifAccept_miss hk (hne _ (by decide))]
    rfl
  | equality | comparison | sum | product =>
    obtain ⟨rfl, h⟩ := h
    refine ⟨j, ⟨rfl, h.mono (Level.marks_next _)⟩, ?_⟩
    rw [Level.step]
    exact operatorStep_stop (hplain (h.mono (by decide)))
  | power | sign | primary => exact absurd hL (by decide)

theorem operand_ok {complaint : String} {i j : Int} (h : rule tokens i = .ok n j)
    (hp : n.isPresent) : operand rule complaint tokens i = .ok n j := by
  unfold operand
  rw [bind_ok h, if_pos hp]
  rfl

theorem operatorStep_ok (hw : Stands tokens j [w]) (hop : operator tokens j = .ok true (j + 1 : Nat))
    (hright : next tokens (j + 1 : Nat) = .ok right k) (hp : right.isPresent) :
    operatorStep next operator build complaint left tokens j = .ok (.inl (build w.text left right)) k := by
  obtain ⟨⟨t, ht, _, hv⟩, _⟩ := hw
  have htext : t.text = w.text := by rw [Token.text, hv, Option.getD_some]
  unfold operatorStep
  rw [bind_ok hop, if_pos rfl, bind_ok (previous_ok ht), htext]
  rw [bind_ok (operand_ok hright hp)]
  rfl

/-- An operator and its right operand are one round of the loop of its level.  Behind `is`, a negation would become part
of the operator. -/
theorem step_operator (o : Operator) (ho : o ≠ .power) (hw : Stands tokens j o.words)
    (hright : o.rightLevel.rule expr tokens (j + o.words.length : Nat) = .ok right k) (hp : right.isPresent)
    (hguard : o = .same → Ends tokens [.notKw] (j + 1)) :
    o.level.step expr left tokens j = .ok (.inl (o.node left right)) k := by
  have hmembership : ∀ {op : String} {i : Nat}, equality expr tokens i = .ok right k →
      membershipRight expr op left tokens i = .ok (.inl (.binary op left right)) k := by
    intro op i h
    rw [membershipRight, bind_ok (operand_ok h hp)]
    rfl
  cases o with
  | power => exact absurd rfl ho
  | or | and =>
    rw [Operator.level, Level.step]
    refine operatorStep_ok hw ?_ hright hp
    rw [acceptPastNewline_ok hw.kindAt, pastNewline_of_kindAt hw.kindAt (by decide)]
    exact accept_hit hw.kindAt (by decide)
  | inside =>
    rw [Operator.level, Level.step, membershipStep, ifAccept_hit hw.kindAt (by decide)]
    exact hmembership hright
  | notInside =>
    rw [Operator.level, Level.step, membershipStep, ifAccept_miss hw.kindAt (by decide),
      ifAccept_hit hw.kindAt (by decide), ifCheck_hit hw.2.kindAt (by decide)]
    obtain ⟨t, ht, hk⟩ := hw.2.kindAt
    rw [bind_ok (advance_ok ht (by rw [hk]; decide))]
    exact hmembership hright
  | same =>
    obtain ⟨kind, hk, hn⟩ := hguard rfl
    rw [Operator.level, Level.step, membershipStep, ifAccept_miss hw.kindAt (by decide),
      ifAccept_miss hw.kindAt (by decide)]
    dsimp only
    rw [ifAccept_hit hw.kindAt (by decide), ifAccept_miss hk hn]
    exact hmembership hright
  | notSame =>
    rw [Operator.level, Level.step, membershipStep, ifAccept_miss hw.kindAt (by decide),
      ifAccept_miss hw.kindAt (by decide)]
    dsimp only
    rw [ifAccept_hit hw.kindAt (by decide), ifAccept_hit hw.2.kindAt (by decide)]
    exact hmembership hright
  | equal | notEqual | less | greater | lessEqual | greaterEqual | plus | minus | times | divide | modulo |
    floorDivide =>
    exact operatorStep_ok hw (accept_hit hw.kindAt (by decide)) hright hp

end

/-! ### Starts of expressions -/

def Level.startKinds (L : Level) : List TokenKind :=
  (if L.rank ≤ Level.sign.rank then [.notKw, .minus] else []) ++
    [.identifier, .number, .string, .trueKw, .falseKw, .noneKw, .lparen, .lbracket, .lbrace]

/-- The kinds of token that make a name in front of them the name of an argument or of a variable with a type. -/
def labelMarks : List TokenKind := [.assign, .colon, .newline, .comment]

/-- The words start like an expression of the level, and their start does not look like a label. -/
def Starts (L : Level) : List Word → Prop
  | [] => False
  | w :: ws => w.kind ∈ L.startKinds ∧ ∀ v ∈ ws.head?, v.kind ∉ labelMarks

theorem Level.startKinds_mono (h : M.rank ≤ L.rank) : ∀ kind ∈ L.startKinds, kind ∈ M.startKinds := by
  intro kind hk
  unfold startKinds at hk ⊢
  split
  · by_cases hL : L.rank ≤ Level.sign.rank
    · rwa [if_pos hL] at hk
    · rw [if_neg hL] at hk
      exact mem_append_right _ hk
  · rwa [if_neg (by omega)] at hk

section

theorem Starts.mono (h : Starts L ws) (hrank : M.rank ≤ L.rank) : Starts M ws := by
  match ws, h with
  | w :: ws, h => exact ⟨Level.startKinds_mono hrank _ h.1, h.2⟩

theorem Starts.length_pos (h : Starts L ws) : 0 < ws.length := by
  match ws, h with
  | w :: ws, _ => exact Nat.succ_pos _

theorem Starts.append (h : Starts L ws) (hv : ∀ v ∈ vs.head?, v.kind ∉ labelMarks) : Starts L (ws ++ vs) := by
  match ws, h with
  | [w], h => exact ⟨h.1, hv⟩
  | w :: w' :: ws, h => exact ⟨h.1, h.2⟩

theorem Starts.head (h : Starts L ws) : ∀ v ∈ ws.head?, v.kind ∈ L.startKinds := by
  match ws, h with
  | w :: ws, h =>
    intro v hv
    cases hv
    exact h.1

theorem Starts.kindAt (h : Starts L ws) (hs : Stands tokens i ws) : ∃ kind ∈ L.startKinds, KindAt tokens i kind := by
  match ws, h with
  | w :: ws, h => exact ⟨w.kind, h.1, hs.kindAt⟩

end

theorem startKinds_notMem_labelMarks (h : kind ∈ Level.disjunction.startKinds) : kind ∉ labelMarks :=
  (by decide : ∀ kind ∈ Level.disjunction.startKinds, kind ∉ labelMarks) kind h

theorem starts_cons (hw : w.kind ∈ M.startKinds) (h : Starts L ws) : Starts M (w :: ws) := by
  refine ⟨hw, fun v hv => ?_⟩
  exact startKinds_notMem_labelMarks (Level.startKinds_mono (by cases L <;> decide) _ (h.head v hv))

theorem ends_of_head (h : Starts L ws) (hne : ∀ v ∈ ws.head?, v.kind ≠ kind) (hs : Stands tokens i ws) :
    Ends tokens [kind] i := by
  match ws, h with
  | w :: ws, _ => exact ⟨w.kind, hs.kindAt, fun hm => hne w rfl (mem_singleton.1 hm)⟩

/-! ### What a rule understands -/

open Parse

/-- The rule of the level reads the words as the node.  A nested expression is shorter than the words around it, so
their number is a budget. -/
structure Reads (L : Level) (n : Node) (ws : List Word) : Prop where
  present : n.isPresent
  starts : Starts L ws
  reads : ∀ {tokens : Array Token} {i m k : Nat}, ws.length ≤ m → Stands tokens i ws →
    Stops tokens L (i + ws.length) k → L.rule (expressionWithin m) tokens i = .ok n k

/-- The rule of the level reads the words and goes on with its loop from the node. -/
structure Opens (L : Level) (n : Node) (ws : List Word) : Prop where
  present : n.isPresent
  starts : Starts L ws
  opens : ∀ {tokens : Array Token} {i j m : Nat} {b : Node} {k : Int}, ws.length ≤ m → Stands tokens i ws →
    Stops tokens L.next (i + ws.length) j → iterate (L.step (expressionWithin m)) n tokens j = .ok b k →
    L.rule (expressionWithin m) tokens i = .ok b k

section

theorem rule_of_chain (hL : L.isChain) : L.rule expr = L.next.rule expr >>= iterate (L.step expr) := by
  cases L <;> first | rfl | cases hL

theorem Reads.opens (h : Reads L.next n ws) (hL : L.Loops) : Opens L n ws := by
  refine ⟨h.present, h.starts.mono (by cases L <;> decide), ?_⟩
  intro tokens i j m b k hm hs hstop hloop
  rcases hL with hL | rfl
  · rw [rule_of_chain hL, bind_ok (h.reads hm hs hstop)]
    exact hloop
  · have hprimary : primary (expressionWithin m) false tokens i = .ok n j := h.reads hm hs hstop
    show postfixed (expressionWithin m) tokens i = .ok b k
    rw [postfixed, bind_ok hprimary, if_neg (by simp [h.present])]
    exact hloop

theorem Opens.reads (h : Opens L n ws) (hL : L.Loops) : Reads L n ws := by
  refine ⟨h.present, h.starts, ?_⟩
  intro tokens i m k hm hs hstop
  obtain ⟨j, hj, hstep⟩ := step_of_stops (expressionWithin m) n hL hstop
  exact h.opens hm hs hj (iterate_done hstep)

end

/-! ### Operators that group from the left -/

theorem stops_operator (o : Operator) (ho : o ≠ .power)
    (hw : Stands tokens j o.words) : Stops tokens o.level.next j j := by
  cases o with
  | power => exact absurd rfl ho
  | _ => exact stops_of_kindAt hw.kindAt (by decide)

theorem length_words_pos (o : Operator) : 0 < o.words.length := by
  cases o <;> decide

theorem head_words_notMem (o : Operator) (ws : List Word) :
    ∀ v ∈ (o.words ++ ws).head?, v.kind ∉ labelMarks := by
  cases o <;> (intro v hv; cases hv; decide)

theorem Operator.isPresent_node (o : Operator) (left right : Node) : (o.node left right).isPresent := by
  cases o <;> rfl

theorem opens_binary (o : Operator) (ho : o ≠ .power) (hleft : Opens o.level left us)
    (hright : Reads o.rightLevel right vs)
    (hguard : o = .same → ∀ v ∈ vs.head?, v.kind ≠ .notKw) :
    Opens o.level (o.node left right) (us ++ (o.words ++ vs)) := by
  refine ⟨o.isPresent_node _ _, hleft.starts.append (head_words_notMem o vs), ?_⟩
  intro tokens i j m b k hm hs hstop hloop
  simp only [length_append] at hm hstop
  obtain ⟨hus, hrest⟩ := stands_append.1 hs
  obtain ⟨hop, hvs⟩ := stands_append.1 hrest
  refine hleft.opens (by omega) hus (stops_operator o ho hop) ?_
  -- one round over the operator and its right operand, then the loop that is given
  have hlen := length_words_pos o
  have hle := hstop.le
  have hlevel : o.rightLevel = o.level.next := by cases o <;> first | rfl | exact absurd rfl ho
  refine iterate_next (j := j) ?_ (by omega) (step_operator o ho hop ?_ hright.present ?_) hloop
  · exact hop.lt_size hlen
  · refine hright.reads (by omega) hvs ?_
    rw [hlevel,
      show i + us.length + o.words.length + vs.length = i + (us.length + (o.words.length + vs.length)) by omega]
    exact hstop
  · rintro rfl
    exact ends_of_head hright.starts (hguard rfl) hvs

/-! ### Signs and powers -/

theorem budget_ok (tokens : Array Token) (i : Int) : budget tokens i = .ok ((tokens.size - i).toNat + 2) i := rfl

theorem reads_sign_of_access (h : Reads .access n ws) : Reads .sign n ws := by
  refine ⟨h.present, h.starts.mono (by decide), ?_⟩
  intro tokens i m k hm hs hstop
  obtain ⟨kind, hmem, hk⟩ := h.starts.kindAt hs
  have hno : kind ∉ [.notKw] ∧ kind ∉ [.minus] :=
    (by decide : ∀ kind ∈ Level.access.startKinds, kind ∉ [.notKw] ∧ kind ∉ [.minus]) kind hmem
  show (budget >>= fun b => unary (expressionWithin m) b) tokens i = .ok n k
  rw [bind_ok (budget_ok tokens i), unary, ifAccept_miss hk hno.1, ifAccept_miss hk hno.2]
  exact h.reads hm hs hstop

theorem reads_sign (s : Sign) (h : Reads .sign n ws) : Reads .sign (.unary s.word.text n) (s.word :: ws) := by
  refine ⟨rfl, starts_cons (by cases s <;> decide) h.starts, ?_⟩
  intro tokens i m k hm hs hstop
  obtain ⟨⟨t, ht, hk, hv⟩, hws⟩ := hs
  have hlt : i < tokens.size := (Array.getElem?_eq_some_iff.1 ht).1
  have htext : t.text = s.word.text := by rw [Token.text, hv, Option.getD_some]
  rw [length_cons] at hm hstop
  -- the budget behind the sign is the budget before it less one
  have hoperand : unary (expressionWithin m) ((tokens.size - i : Int).toNat + 1) tokens (i + 1 : Nat) = .ok n k := by
    have hread := h.reads (i := i + 1) (m := m) (by omega) hws
      (show Stops tokens .sign (i + 1 + ws.length) k by rwa [show i + 1 + ws.length = i + (ws.length + 1) by omega])
    have hbudget : (tokens.size - i : Int).toNat + 1 = (tokens.size - (i + 1 : Nat) : Int).toNat + 2 := by omega
    rw [hbudget]
    exact hread
  show (budget >>= fun b => unary (expressionWithin m) b) tokens i = .ok _ k
  rw [bind_ok (budget_ok tokens i), unary]
  cases s with
  | negation =>
    rw [ifAccept_hit ⟨t, ht, hk⟩ (by decide), bind_ok (previous_ok ht), htext, bind_ok (operand_ok hoperand h.present)]
    rfl
  | minus =>
    rw [ifAccept_miss ⟨t, ht, hk⟩ (by decide), ifAccept_hit ⟨t, ht, hk⟩ (by decide), bind_ok (previous_ok ht), htext,
      bind_ok (operand_ok hoperand h.present)]
    rfl

theorem power_mono {n : Nat} (hnm : n ≤ m) {i k : Int} {b : Node}
    (h : power expr n tokens i = .ok b k) : power expr m tokens i = .ok b k := by
  induction n generalizing m i b k with
  | zero => cases h
  | succ n ih =>
    obtain ⟨m, rfl⟩ : ∃ m', m = m' + 1 := ⟨m - 1, by omega⟩
    rw [power] at h ⊢
    obtain ⟨_, _, hbudget, h⟩ := exists_of_bind_ok h
    obtain ⟨base, j, hbase, h⟩ := exists_of_bind_ok h
    obtain ⟨found, l, haccept, h⟩ := exists_of_bind_ok h
    rw [bind_ok hbudget, bind_ok hbase, bind_ok haccept]
    cases found with
    | false => exact h
    | true =>
      obtain ⟨t, l', hprev, h⟩ := exists_of_bind_ok h
      obtain ⟨right, l'', hright, h⟩ := exists_of_bind_ok h
      obtain ⟨right', _, hpower, hp⟩ := exists_of_bind_ok hright
      have hmore : operand (power expr m) (noOperandAfter "**") tokens l' = .ok right l'' := by
        rw [operand, bind_ok (ih (by omega) hpower)]
        exact hp
      rw [if_pos rfl, bind_ok hprev, bind_ok hmore]
      exact h

theorem reads_power_of_sign (h : Reads .sign n ws) : Reads .power n ws := by
  refine ⟨h.present, h.starts.mono (by decide), ?_⟩
  intro tokens i m k hm hs hstop
  obtain ⟨rfl, hends⟩ := hstop
  have hread := h.reads hm hs ⟨rfl, hends.mono (Level.marks_next .power)⟩
  obtain ⟨kind, hk, hn⟩ := hends
  have hno : kind ∉ [.doubleStar] := fun hm => hn (by rw [mem_singleton.1 hm]; decide)
  show (budget >>= fun b => power (expressionWithin m) b) tokens i = .ok n _
  rw [bind_ok (budget_ok tokens i), power, bind_ok (budget_ok tokens i)]
  have hunary : unary (expressionWithin m) ((tokens.size - i : Int).toNat + 2) tokens i = .ok n (i + ws.length : Nat) :=
    hread
  rw [bind_ok hunary, ifAccept_miss hk hno]
  rfl

theorem reads_power (hleft : Reads .sign left us) (hright : Reads .power right vs) :
    Reads .power (Operator.power.node left right) (us ++ (Operator.power.words ++ vs)) := by
  refine ⟨rfl, (hleft.starts.mono (by decide)).append (head_words_notMem .power vs), ?_⟩
  intro tokens i m k hm hs hstop
  simp only [length_append] at hm hstop
  obtain ⟨hus, hrest⟩ := stands_append.1 hs
  obtain ⟨hop, hvs⟩ := stands_append.1 hrest
  have hlen : Operator.power.words.length = 1 := rfl
  rw [hlen] at hm hstop hvs
  have hbase := hleft.reads (m := m) (by omega) hus (stops_of_kindAt hop.kindAt (by decide))
  have hpow := hright.reads (m := m) (by omega) hvs
    (show Stops tokens .power (i + us.length + 1 + vs.length) k by
      rwa [show i + us.length + 1 + vs.length = i + (us.length + (1 + vs.length)) by omega])
  have hlt := hop.kindAt.lt_size
  have hmore : power (expressionWithin m) ((tokens.size - i : Int).toNat + 1) tokens (i + us.length + 1 : Nat) =
      .ok right k := power_mono (by omega) hpow
  obtain ⟨⟨t, ht, hk, hv⟩, _⟩ := hop
  have htext : t.text = "**" := by rw [Token.text, hv, Option.getD_some]
  show (budget >>= fun b => power (expressionWithin m) b) tokens i = .ok _ k
  rw [bind_ok (budget_ok tokens i), power, bind_ok (budget_ok tokens i)]
  have hunary : unary (expressionWithin m) ((tokens.size - i : Int).toNat + 2) tokens i =
      .ok left (i + us.length : Nat) := hbase
  rw [bind_ok hunary, ifAccept_hit ⟨t, ht, hk⟩ (by decide), bind_ok (previous_ok ht), htext,
    bind_ok (operand_ok hmore hright.present)]
  rfl

/-! ### From tighter levels to looser ones -/

/-- The rule of the level reads the words, and goes on from them if it has a loop. -/
structure Parsed (L : Level) (n : Node) (ws : List Word) : Prop where
  reads : Reads L n ws
  opens : L.Loops → Opens L n ws

section

theorem Opens.parsed (h : Opens L n ws) (hL : L.Loops) : Parsed L n ws := ⟨h.reads hL, fun _ => h⟩

theorem Reads.parsed (h : Reads L n ws) (hL : ¬L.Loops := by decide) : Parsed L n ws := ⟨h, fun h => absurd h hL⟩

theorem parsed_of_next (h : Parsed L.next n ws) : Parsed L n ws := by
  cases L with
  | power => exact (reads_power_of_sign h.reads).parsed
  | sign => exact (reads_sign_of_access h.reads).parsed
  | primary => exact h
  | access => exact (h.reads.opens (.inr rfl)).parsed (.inr rfl)
  | _ => exact (h.reads.opens (.inl rfl)).parsed (.inl rfl)

theorem Parsed.lower (h : Parsed L n ws) (hrank : M.rank ≤ L.rank) : Parsed M n ws := by
  obtain ⟨d, hd⟩ : ∃ d, L.rank = M.rank + d := ⟨L.rank - M.rank, by omega⟩
  induction d generalizing M with
  | zero => rwa [← Level.rank_inj hd]
  | succ d ih =>
    have hne : M ≠ .primary := by
      rintro rfl
      have := L.rank_le
      omega
    have hnext := Level.rank_next hne
    exact parsed_of_next (ih (by omega) (by omega))

/-! ### Whole expressions -/

def wholeMarks : List TokenKind := Level.disjunction.marks ++ .assign :: compoundMarks.map Prod.fst

theorem Reads.whole (h : Reads .disjunction n ws) (hm : ws.length < m) (hs : Stands tokens i ws)
    (hstop : Stops tokens .disjunction (i + ws.length) k)
    (hend : Ends tokens (.assign :: compoundMarks.map Prod.fst) k) : expressionWithin m tokens i = .ok n k := by
  obtain ⟨m, rfl⟩ : ∃ m', m = m' + 1 := ⟨m - 1, by omega⟩
  obtain ⟨kind, hk, hn⟩ := hend
  have hread : disjunction (expressionWithin m) tokens i = .ok n k := h.reads (by omega) hs hstop
  have hassign : kind ∉ [.assign] := fun hmem => hn (mem_cons.2 (.inl (mem_singleton.1 hmem)))
  have hcompound : kind ∉ compoundMarks.map Prod.fst := fun hmem => hn (mem_cons_of_mem _ hmem)
  rw [expressionWithin, assigning, bind_ok hread, if_neg (by simp [h.present]), ifCheck_miss hk hassign,
    ifCheck_miss hk hcompound]
  rfl

theorem Reads.beforeLines (h : Reads .disjunction n ws) (hm : ws.length < m)
    (hs : Stands tokens i ws) (hl : Lines tokens (i + ws.length) l) (hk : KindAt tokens l kind)
    (hend : kind ∉ wholeMarks) : expressionWithin m tokens i = .ok n (min (i + ws.length + 2) l : Nat) := by
  have hmarks : (∀ k ∈ [.newline, .andKw, .orKw], k ∈ wholeMarks) ∧ ∀ k ∈ Level.membership.marks, k ∈ wholeMarks := by
    decide
  have hle := hl.1
  refine h.whole hm hs (stops_of_lines hl hk (fun hm => hend (hmarks.1 _ hm)) fun _ hm => hend (hmarks.2 _ hm)) ?_
  refine (hl.within (by omega) (by omega) (Nat.le_refl l)).ends hk (fun hm => hend (mem_append_right _ hm)) (by decide)

theorem Reads.before (h : Reads .disjunction n ws) (hm : ws.length < m)
    (hs : Stands tokens i ws) (hk : KindAt tokens (i + ws.length) kind)
    (hend : kind ∉ wholeMarks) : expressionWithin m tokens i = .ok n (i + ws.length : Nat) := by
  refine h.whole hm hs (stops_of_kindAt hk fun hmem => hend (mem_append_left _ hmem)) ?_
  exact ⟨kind, hk, fun hmem => hend (mem_append_right _ hmem)⟩

end

end BraceLang
