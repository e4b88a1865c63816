import BraceLang.Proofs.Operands

/-!
# Precedence

A formula is read back from its words, whichever style they are written in.
-/

namespace BraceLang

open Parse

section

variable {n : Node} {ws : List Word} {L : Level}

theorem parsed_enclosed (h : Parsed L n ws) (M : Level) : Parsed M n (enclosed ws) := by
  have hprimary : Parsed .primary n (enclosed ws) :=
    (reads_enclosed (h.lower (by cases L <;> decide)).reads).parsed
  exact hprimary.lower M.rank_le

theorem parsed_placed (style : Style) (required : Level) (h : Parsed L n ws)
    (hrank : required.rank ≤ Level.access.rank := by decide) : Parsed required n (placed style required L ws) := by
  unfold placed
  split
  · exact parsed_enclosed h required
  · next hge =>
    refine h.lower ?_
    cases style with
    | sparing => exact Nat.le_of_not_lt hge
    | full => exact Nat.le_trans hrank (Nat.le_of_not_lt hge)

theorem reads_placed (style : Style) (h : Parsed L n ws) : Reads .disjunction n (placed style .disjunction L ws) :=
  (parsed_placed style _ h).reads

theorem parsed_guard (o : Operator) (h : Parsed L n ws) :
    Parsed L n (o.guard ws) ∧ (o = .same → ∀ v ∈ (o.guard ws).head?, v.kind ≠ .notKw) := by
  unfold Operator.guard
  split
  · refine ⟨parsed_enclosed h L, fun _ v hv => ?_⟩
    cases hv
    decide
  · next hno =>
    refine ⟨h, fun ho v hv he => hno ⟨ho, ?_⟩⟩
    rw [Option.mem_def.1 hv, Option.map_some, he]

theorem parsed_binary (o : Operator) (hleft : Parsed o.leftLevel left us)
    (hright : Parsed o.rightLevel right vs) (hguard : o = .same → ∀ v ∈ vs.head?, v.kind ≠ .notKw) :
    Parsed o.level (o.node left right) (us ++ (o.words ++ vs)) := by
  by_cases ho : o = .power
  · subst ho
    exact (reads_power hleft.reads hright.reads).parsed
  · have hlevel : o.leftLevel = o.level := by cases o <;> first | rfl | exact absurd rfl ho
    have hloops : o.level.Loops := .inl (by cases o <;> first | rfl | exact absurd rfl ho)
    rw [hlevel] at hleft
    exact (opens_binary o ho (hleft.opens hloops) hright.reads hguard).parsed hloops

end

mutual

/-- The words of a formula are read as its tree, at its own level. -/
theorem parsed_words (style : Style) : ∀ f : Formula, Parsed f.level f.node (f.words style)
  | .name s => (reads_name s).parsed
  | .number s => (reads_literal s (.inl rfl)).parsed
  | .text s => (reads_literal s (.inr rfl)).parsed
  | .truth true => (reads_truth true rfl).parsed
  | .truth false => (reads_truth false rfl).parsed
  | .nothing => (reads_nothing "None").parsed
  | .sign s x => (reads_sign s (parsed_placed style _ (parsed_words style x)).reads).parsed
  | .binary o l r => by
    have hr : Parsed o.rightLevel r.node (placed style o.rightLevel r.level (r.words style)) :=
      parsed_placed style _ (parsed_words style r) (by cases o <;> decide)
    obtain ⟨hright, hguard⟩ := parsed_guard o hr
    exact parsed_binary o (parsed_placed style _ (parsed_words style l) (by cases o <;> decide)) hright hguard
  | .member x s => by
    have hx : Parsed .access x.node (placed style .access x.level (x.words style)) :=
      parsed_placed style _ (parsed_words style x)
    exact (opens_member (hx.opens (.inr rfl)) s).parsed (.inr rfl)
  | .call f [] => by
    have hf : Parsed .access f.node (placed style .access f.level (f.words style)) :=
      parsed_placed style _ (parsed_words style f)
    exact (opens_call_none (g := []) (hf.opens (.inr rfl)) (by simp)).parsed (.inr rfl)
  | .call f ((s, x) :: args) => by
    have hf : Parsed .access f.node (placed style .access f.level (f.words style)) :=
      parsed_placed style _ (parsed_words style f)
    exact (opens_call (g := []) (hf.opens (.inr rfl)) (by simp)
      (arguments_words style _ (List.cons_ne_nil (s, x) args))).parsed (.inr rfl)
  | .index x i => by
    have hx : Parsed .access x.node (placed style .access x.level (x.words style)) :=
      parsed_placed style _ (parsed_words style x)
    exact (opens_index (hx.opens (.inr rfl)) (reads_placed style (parsed_words style i))).parsed (.inr rfl)
  | .list [] => (reads_empty .square).parsed
  | .list (x :: items) =>
    (reads_list (reads_placed style (parsed_words style x)) (separated_moreWords style items)).parsed
  | .tuple [] => (reads_empty .round).parsed
  | .tuple [x] => (reads_tuple_singleton (reads_placed style (parsed_words style x))).parsed
  | .tuple (x :: y :: items) =>
    (reads_tuple (reads_placed style (parsed_words style x)) (reads_placed style (parsed_words style y))
      (separated_moreWords style items)).parsed
  | .set first rest =>
    (reads_set (reads_placed style (parsed_words style first)) (separated_moreWords style rest)).parsed
  | .dict [] => (reads_empty .curly).parsed
  | .dict ((k, v) :: entries) => by
    have hentry : IsEntry (.entry k.node v.node) _ :=
      ⟨k.node, v.node, _, _, rfl, rfl, reads_placed style (parsed_words style k),
        reads_placed style (parsed_words style v)⟩
    exact (reads_dict hentry (separated_moreEntryWords style entries)).parsed

theorem separated_moreWords (style : Style) :
    ∀ items : List Formula, Separated (Reads .disjunction) (Formula.nodes items) (Formula.moreWords style items)
  | [] => .nil
  | x :: items => .cons (reads_placed style (parsed_words style x)) (separated_moreWords style items)

theorem arguments_words (style : Style) : ∀ args : List (Option String × Formula), args ≠ [] →
    Arguments (Formula.argumentNodes args) (Formula.argumentWords style args)
  | [], h => absurd rfl h
  | [(s, x)], _ => .last (g := []) ⟨s, x.node, _, rfl, rfl, reads_placed style (parsed_words style x)⟩ (by simp)
  | (s, x) :: arg :: args, _ =>
    .more (g := []) ⟨s, x.node, _, rfl, rfl, reads_placed style (parsed_words style x)⟩ (by simp)
      (arguments_words style (arg :: args) (List.cons_ne_nil arg args))

theorem separated_moreEntryWords (style : Style) : ∀ entries : List (Formula × Formula),
    Separated IsEntry (Formula.entryNodes entries) (Formula.moreEntryWords style entries)
  | [] => .nil
  | (k, v) :: entries =>
    .cons ⟨k.node, v.node, _, _, rfl, rfl, reads_placed style (parsed_words style k),
      reads_placed style (parsed_words style v)⟩
      (separated_moreEntryWords style entries)

end

/-! ### Whole expressions -/

theorem reads_wholeWords (style : Style) (f : Formula) : Reads .disjunction f.node (f.wholeWords style) :=
  reads_placed style (parsed_words style f)

theorem Formula.wholeWords_sparing (f : Formula) : f.wholeWords .sparing = f.words .sparing := by
  have hrank : Level.disjunction.rank ≤ f.level.rank := by cases f.level <;> decide
  exact if_neg (Nat.not_lt.2 hrank)

theorem Reads.expression (h : Reads .disjunction n ws) {tokens : Array Token}
    (hs : Stands tokens i ws) (hstop : Stops tokens .disjunction (i + ws.length) k)
    (hend : Ends tokens (.assign :: compoundMarks.map Prod.fst) k) : expression? tokens i = .ok n k := by
  obtain ⟨_, hk, _⟩ := hstop.1
  have hlt := hk.lt_size
  exact h.whole (m := (tokens.size - i : Int).toNat + 2) (by omega) hs hstop hend

/-- The precedence table: a formula in the sparing style before a semicolon is read as the tree that was written, and
the cursor is left at the semicolon. -/
theorem expression_words_sparing (f : Formula) (before printed after : List Token) (mark : Token)
    (hprinted : printed.map Token.word? = (f.words .sparing).map some) (hmark : mark.kind = .semicolon) :
    expression? (before ++ (printed ++ mark :: after)).toArray before.length =
      .ok f.node (before.length + printed.length : Nat) := by
  have hlen : printed.length = (f.words .sparing).length := length_of_map_word? hprinted
  have hstands := stands_of_map_word? hprinted before (mark :: after)
  have hkind := kindAt_append (before ++ printed) after mark
  rw [List.append_assoc, List.length_append, hmark, hlen] at hkind
  have hread := reads_wholeWords .sparing f
  rw [f.wholeWords_sparing] at hread
  rw [hlen]
  exact hread.expression hstands (stops_of_kindAt hkind (by decide)) ⟨_, hkind, by decide⟩

/-- `not a is (not b) and c - (d(1) - e) ** -f`: parentheses behind `is`, around a right operand of the same level and
around the base of a power, but not around its exponent. -/
theorem expression_words_sparing_mixed :
    let token (w : Word) : Token := ⟨w.kind, some w.text, 1, 0, none⟩
    let written : List Word :=
      [⟨.notKw, "not"⟩, ⟨.identifier, "a"⟩, ⟨.isKw, "is"⟩, ⟨.lparen, "("⟩, ⟨.notKw, "not"⟩, ⟨.identifier, "b"⟩,
        ⟨.rparen, ")"⟩, ⟨.andKw, "and"⟩, ⟨.identifier, "c"⟩, ⟨.minus, "-"⟩, ⟨.lparen, "("⟩, ⟨.identifier, "d"⟩,
        ⟨.lparen, "("⟩, ⟨.number, "1"⟩, ⟨.rparen, ")"⟩, ⟨.minus, "-"⟩, ⟨.identifier, "e"⟩, ⟨.rparen, ")"⟩,
        ⟨.doubleStar, "**"⟩, ⟨.minus, "-"⟩, ⟨.identifier, "f"⟩]
    expression? ([] ++ (written.map token ++ [token ⟨.semicolon, ";"⟩])).toArray 0 =
      .ok (.logical "and" (.binary "is" (.unary "not" (.identifier "a")) (.unary "not" (.identifier "b")))
        (.binary "-" (.identifier "c")
          (.binary "**" (.binary "-" (.call (.identifier "d") [.literal (.text "1") .number]) (.identifier "e"))
            (.unary "-" (.identifier "f"))))) 21 :=
  expression_words_sparing
    (.binary .and (.binary .same (.sign .negation (.name "a")) (.sign .negation (.name "b")))
      (.binary .minus (.name "c")
        (.binary .power (.binary .minus (.call (.name "d") [(none, .number "1")]) (.name "e"))
          (.sign .minus (.name "f"))))) [] _ [] _ rfl rfl

end BraceLang
