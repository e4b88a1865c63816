import BraceLang.Grammar.Program
import BraceLang.Proofs.Phrases

/-!
# Targets that take too much

The targets of comprehensions and of finals are read by the rule for whole expressions.
-/

namespace BraceLang

open List Parse

variable {tokens : Array Token} {i j m : Nat} {kind : TokenKind} {e : ParseError}

/-! ### Comprehensions -/

/-- What fails in a primary expression fails in the whole expression that starts with it. -/
theorem expressionWithin_fail {j : Int} (hk : KindAt tokens i kind) (hkind : kind ∉ [.notKw] ∧ kind ∉ [.minus])
    (h : primary (expressionWithin m) false tokens i = .fail e j) : expressionWithin (m + 1) tokens i = .fail e j := by
  have hunary (n : Nat) : unary (expressionWithin m) (n + 1) tokens i = .fail e j := by
    rw [unary, ifAccept_miss hk hkind.1, ifAccept_miss hk hkind.2]
    exact bind_fail h
  have hpower (n : Nat) : power (expressionWithin m) (n + 1) tokens i = .fail e j :=
    (bind_ok (budget_ok tokens i)).trans (bind_fail (hunary _))
  have hproduct : product (expressionWithin m) tokens i = .fail e j :=
    bind_fail ((bind_ok (budget_ok tokens i)).trans (hpower _))
  exact bind_fail (bind_fail (bind_fail (bind_fail (bind_fail (bind_fail (bind_fail hproduct))))))

theorem parsed_inside_tight (x : String) (h : Parsed L n ws)
    (hL : Level.equality.rank ≤ L.rank) : ∃ n, Parsed .membership n (⟨.identifier, x⟩ :: ⟨.inKw, "in"⟩ :: ws) :=
  ⟨_, parsed_binary .inside (((reads_name x).parsed).lower (by decide)) (h.lower hL) Operator.noConfusion⟩

/-- Behind a name and an `in`, the words of a formula are read to their end: as the right operand, or from the first
operand on if the formula binds more loosely. -/
theorem parsed_inside (style : Style) (x : String) : ∀ (f : Formula) (M : Level), M.rank ≤ Level.membership.rank →
    M.rank ≤ f.level.rank → ∃ n, Parsed M n (⟨.identifier, x⟩ :: ⟨.inKw, "in"⟩ :: f.words style)
  | f, M, hM, hf => by
    by_cases htight : Level.equality.rank ≤ f.level.rank
    · obtain ⟨n, h⟩ := parsed_inside_tight x (parsed_words style f) htight
      exact ⟨n, h.lower hM⟩
    obtain ⟨o, l, r, rfl⟩ : ∃ o l r, f = .binary o l r := by
      cases f <;> first | exact ⟨_, _, _, rfl⟩ | exact absurd (Nat.le_of_ble_eq_true rfl) htight
    have hlevel : o.leftLevel = o.level := by
      cases o <;> first | rfl | exact absurd (Nat.le_of_ble_eq_true rfl) htight
    have hrank : o.leftLevel.rank ≤ Level.membership.rank := hlevel ▸ Nat.le_of_lt_succ (Nat.lt_of_not_le htight)
    have hleft : ∃ n, Parsed o.leftLevel n
        (⟨.identifier, x⟩ :: ⟨.inKw, "in"⟩ :: placed style o.leftLevel l.level (l.words style)) := by
      unfold placed
      split
      · obtain ⟨n, h⟩ := parsed_inside_tight x (parsed_enclosed (parsed_words style l) .equality) (Nat.le_refl _)
        exact ⟨n, h.lower hrank⟩
      · next hge =>
        refine parsed_inside style x l o.leftLevel hrank ?_
        cases style with
        | sparing => exact Nat.le_of_not_lt hge
        | full => exact Nat.le_trans hrank (Nat.le_trans (Nat.le_of_ble_eq_true rfl) (Nat.le_of_not_lt hge))
    obtain ⟨n, hleft⟩ := hleft
    have hr : Parsed o.rightLevel r.node (placed style o.rightLevel r.level (r.words style)) :=
      parsed_placed style _ (parsed_words style r) (by cases o <;> decide)
    obtain ⟨hright, hguard⟩ := parsed_guard o hr
    exact ⟨_, (parsed_binary o hleft hright hguard).lower hf⟩

def missesIn (tokens : Array Token) (j : Nat) (t : Token) : Reply Node :=
  .fail (.rejected ⟨"Expected 'in' in comprehension at line " ++ toString t.line ++ " - found " ++ t.kind.name ++
    " instead", tokens, j, 5⟩) j

/-- The words of a comprehension from its `for` up to the end of its source. -/
def sourceWords (style : Style) (x : String) (it : Formula) : List Word :=
  ⟨.forKw, "for"⟩ :: ⟨.identifier, x⟩ :: ⟨.inKw, "in"⟩ :: it.wholeWords style

/-- The tail of a comprehension is rejected where its source ends. -/
theorem comprehensionTail_rejected (element : Node) (k : ComprehensionKind)
    (hs : Stands tokens i (sourceWords style x it)) (hm : (sourceWords style x it).length ≤ m)
    (ht : tokens[i + (sourceWords style x it).length]? = some t) (hend : t.kind ∉ .inKw :: wholeMarks) :
    comprehensionTail (expressionWithin m) element k tokens i =
      missesIn tokens (i + (sourceWords style x it).length) t := by
  obtain ⟨n, hread⟩ : ∃ n, Parsed .disjunction n (⟨.identifier, x⟩ :: ⟨.inKw, "in"⟩ :: it.wholeWords style) := by
    unfold Formula.wholeWords placed
    split
    · obtain ⟨n, h⟩ := parsed_inside_tight x (parsed_enclosed (parsed_words style it) .equality) (Nat.le_refl _)
      exact ⟨n, h.lower (by decide)⟩
    · exact parsed_inside style x it .disjunction (by decide) (by cases it.level <;> decide)
  rw [mem_cons, not_or] at hend
  have hlen : i + (sourceWords style x it).length =
      i + 1 + (⟨.identifier, x⟩ :: ⟨.inKw, "in"⟩ :: it.wholeWords style : List Word).length := by
    rw [sourceWords, length_cons]
    omega
  rw [hlen] at ht ⊢
  refine expect_bind hs.kindAt (by decide) fun _ _ => ?_
  rw [bind_ok (operand_ok (hread.reads.before hm hs.2 ⟨t, ht, rfl⟩ hend.2) hread.reads.present)]
  refine bind_fail ?_
  rw [expect, ifCheck_miss ⟨t, ht, rfl⟩ (by simpa using hend.1)]
  exact bind_ok (peek_ok ht)

/-- What a comprehension makes, with the key of its entries if it makes a dictionary. -/
inductive ComprehensionForm where
  | list | generator | set
  | dict (key : Formula)

namespace ComprehensionForm

def bracket : ComprehensionForm → Bracket
  | list => .square
  | generator => .round
  | set | dict _ => .curly

def keyWords (style : Style) : ComprehensionForm → List Word
  | dict key => key.wholeWords style ++ [⟨.colon, ":"⟩]
  | _ => []

/-- The words of a comprehension with its element, up to the end of its source. -/
def words (style : Style) (form : ComprehensionForm) (element : Formula) (x : String) (it : Formula) : List Word :=
  form.bracket.opening :: (form.keyWords style ++ (element.wholeWords style ++ sourceWords style x it))

end ComprehensionForm

open ComprehensionForm in
/-- No comprehension is read: neither before a condition nor before its closing bracket is there another `in`. -/
theorem comprehension_rejected (style : Style) (form : ComprehensionForm) (element it : Formula) (x : String)
    {t : Token} (hs : Stands tokens i (form.words style element x it))
    (ht : tokens[i + (form.words style element x it).length]? = some t)
    (hend : t.kind ∈ [.ifKw, form.bracket.closing.kind]) :
    expression? tokens i = missesIn tokens (i + (form.words style element x it).length) t := by
  have hmarks : t.kind ∉ .inKw :: wholeMarks := by
    simp only [mem_cons, not_mem_nil, or_false] at hend
    rcases hend with h | h
    · rw [h]; decide
    · rw [h]; cases form.bracket <;> decide
  have helement := reads_wholeWords style element
  obtain ⟨hkey, hrest⟩ := stands_append.1 hs.2
  obtain ⟨hfirst, hsource⟩ := stands_append.1 hrest
  have hlen : i + (form.words style element x it).length = i + 1 + (form.keyWords style).length +
      (element.wholeWords style).length + (sourceWords style x it).length := by
    simp only [ComprehensionForm.words, length_cons, length_append]
    omega
  rw [hlen] at ht ⊢
  have hsize := (Array.getElem?_eq_some_iff.1 ht).1
  obtain ⟨m, hm⟩ : ∃ m, (tokens.size - i : Int).toNat + 2 = m + 1 := ⟨_, rfl⟩
  have htail (k : ComprehensionKind) := comprehensionTail_rejected (m := m) element.node k hsource (by omega) ht hmarks
  have hread (complaint : String) :
      operand (expressionWithin m) complaint tokens (i + 1 + (form.keyWords style).length : Nat) = _ :=
    operand_ok (helement.before (by omega) hfirst hsource.kindAt (by decide)) helement.present
  rw [expression?, bind_ok (budget_ok tokens i), hm]
  refine expressionWithin_fail hs.kindAt (by cases form.bracket <;> decide) ?_
  rw [primary_opening form.bracket _ hs.kindAt]
  have hfor := hsource.kindAt
  obtain ⟨kind, hmem, hk⟩ := helement.starts.kindAt hfirst
  obtain ⟨-, hround, hsquare, hcurly, hcolon⟩ := startKinds_ne hmem
  cases form with
  | list =>
    exact (ifCheck_miss hk hsquare).trans
      ((bind_ok (hread _)).trans ((ifCheck_hit hfor (by decide)).trans (htail _)))
  | generator =>
    exact (ifCheck_miss hk hround).trans
      ((bind_ok (hread _)).trans ((ifCheck_hit hfor (by decide)).trans (bind_fail (htail _))))
  | set =>
    exact (ifCheck_miss hk hcurly).trans ((bind_ok (hread _)).trans
      ((ifAccept_miss hfor (by decide)).trans ((ifCheck_hit hfor (by decide)).trans (htail _))))
  | dict key =>
    have hkeyRead := reads_wholeWords style key
    obtain ⟨hwords, hmark⟩ := stands_append.1 hkey
    obtain ⟨_, hmem, hk⟩ := hkeyRead.starts.kindAt hwords
    have hplace : i + 1 + (keyWords style (dict key)).length = i + 1 + (key.wholeWords style).length + 1 := by
      rw [keyWords, length_append, ← Nat.add_assoc, length_singleton]
    rw [hplace] at hread hfor htail ⊢
    refine (ifCheck_miss hk (startKinds_ne hmem).2.2.2.1).trans ((bind_ok (operand_ok
      (hkeyRead.before (by omega) hwords hmark.kindAt (by decide)) hkeyRead.present)).trans ?_)
    refine (ifAccept_hit hmark.kindAt (by decide)).trans ?_
    exact (bind_ok (hread _)).trans ((ifCheck_hit hfor (by decide)).trans (bind_fail (htail _)))

def Word.token (w : Word) : Token := ⟨w.kind, some w.text, 1, 0, none⟩

theorem comprehension_rejected_list :
    let words : List Word := [⟨.lbracket, "["⟩, ⟨.identifier, "e"⟩, ⟨.forKw, "for"⟩, ⟨.identifier, "x"⟩, ⟨.inKw, "in"⟩,
      ⟨.identifier, "it"⟩, ⟨.rbracket, "]"⟩]
    let tokens := (words.map Word.token).toArray
    expression? tokens 0 = missesIn tokens 6 (Word.token ⟨.rbracket, "]"⟩) := by
  intro words tokens
  have hwords : ((words.take 6).map Word.token).map Token.word? =
      (ComprehensionForm.words .sparing .list (.name "e") "x" (.name "it")).map some := rfl
  have hs := stands_of_map_word? hwords [] ((words.drop 6).map Word.token)
  exact comprehension_rejected .sparing .list (.name "e") (.name "it") "x" hs rfl (by decide)

/-! ### Finals -/

/-- What stands behind the keyword of a final: a declaration with a type, or an assignment. -/
def finalPhrase (x : String) (type : Option TypeName) (e : Formula) : Phrase :=
  type.elim (.assign (.name x) .plain e) fun type => .declare x type (some e)

theorem Reaches.at_semicolon {n : Node} (h : Reaches tokens i n j true) : expression tokens i = .ok n j := by
  obtain ⟨k, hread, ⟨kind, hk, -⟩, l, haccept, hleaves⟩ := h
  by_cases hkind : kind = .semicolon
  · subst hkind
    rw [accept_hit hk (by decide)] at haccept
    have hkl : ((k + 1 : Nat) : Int) = l := (Reply.ok.inj haccept).2
    have hjl : l = j + 1 := hleaves
    rwa [show k = j by omega] at hread
  · rw [accept_miss hk (by simpa using hkind)] at haccept
    cases haccept

theorem wholeWords_name (style : Style) (x : String) :
    (Formula.name x).wholeWords style = [⟨.identifier, x⟩] := by
  cases style <;> rfl

theorem kindAt_of_finalPhrase {e : Formula}
    (hs : Stands tokens i ((finalPhrase x type e).words style)) : KindAt tokens i .identifier := by
  cases type with
  | none =>
    simp only [finalPhrase, Option.elim_none, Phrase.words, Place.formula, wholeWords_name] at hs
    exact hs.kindAt
  | some => exact hs.kindAt

theorem finalDeclaration_eq (style : Style) (x : String) (type : Option TypeName) (e : Formula)
    (hs : Stands tokens i ((finalPhrase x type e).words style))
    (hj : i + ((finalPhrase x type e).words style).length = j) (hend : KindAt tokens j .semicolon) :
    finalDeclaration tokens i = type.elim
      (.fail (.rejected ⟨"Final variables must be initialized", tokens, j, 5⟩) j)
      fun type => .ok (.finalDecl (.identifier x) e.node (some type.text)) (j + 1 : Nat) := by
  have hname := reads_wholeWords style (.name x)
  have he := reads_wholeWords style e
  rw [wholeWords_name] at hname
  rw [finalDeclaration, bind_ok (check_hit (kindAt_of_finalPhrase hs) (by decide)), if_neg (by decide)]
  cases type with
  | none =>
    simp only [finalPhrase, Option.elim_none, Phrase.words, Place.formula, wholeWords_name, length_append, length_cons]
      at hs hj
    obtain rfl : i + 1 + 1 + (e.wholeWords style).length = j := by simp only [← hj, length_nil]; omega
    obtain ⟨_, hreach⟩ := reaches_assignment .plain hname he hs (.semicolon hend)
    refine (bind_ok hreach.at_semicolon).trans ((ifAccept_miss hend (by decide)).trans ?_)
    exact (bind_ok (accept_miss hend (by decide))).trans rfl
  | some type =>
    simp only [finalPhrase, Option.elim_some, Phrase.words, Phrase.initialWords, length_cons] at hs hj
    obtain rfl : i + 1 + 1 + 1 + 1 + (e.wholeWords style).length = j := by simp only [← hj]; omega
    have hcolon : KindAt tokens (i + 1) .colon := hs.2.kindAt
    have hassign : KindAt tokens (i + 1 + 1 + 1) .assign := hs.2.2.2.kindAt
    refine (bind_ok (hname.expression_before ⟨hs.1, trivial⟩ hcolon (by decide))).trans ?_
    refine (ifAccept_hit hcolon (by decide)).trans ?_
    have htype : (some <$> typeText) tokens (i + 1 + 1 : Nat) = .ok (some type.text) (i + 1 + 1 + 1 : Nat) :=
      (bind_ok (typeText_ok type ⟨hs.2.2.1, trivial⟩ hassign (by decide))).trans rfl
    refine (bind_ok htype).trans ((bind_ok (accept_hit hassign (by decide))).trans ?_)
    refine (bind_ok (he.expression_before hs.2.2.2.2 hend (by decide))).trans ?_
    exact (bind_ok (accept_hit hend (by decide))).trans rfl

theorem annotations_none (hk : KindAt tokens i kind) (hkind : kind ∉ [.atSign, .atBang]) :
    annotations tokens i = .ok [] i :=
  iterate_done (ifCheck_miss hk hkind)

theorem compilerFlags_none (allowed : Option (List TokenKind)) (hk : KindAt tokens i kind)
    (hkind : kind ∉ [.lbracket]) : compilerFlags allowed tokens i = .ok [] i :=
  (bind_ok (rfl : cursor tokens i = _)).trans ((bind_ok (iterate_done (ifCheck_miss hk hkind))).trans rfl)

/-- A final that is no class is read by its own rule. -/
theorem statement_final (hfinal : KindAt tokens i .finalKw) (hname : KindAt tokens (i + 1) .identifier) :
    statement tokens i = finalDeclaration tokens (i + 1 : Nat) := by
  obtain ⟨t, ht, -⟩ := id hfinal
  have hcore : statementCore tokens i = finalDeclaration tokens (i + 1 : Nat) := by
    rw [statementCore, bind_ok (peek_ok ht), ifCheck_miss hfinal (by decide),
      bind_ok (compilerFlags_none _ hfinal (by decide)), bind_ok (peek_ok ht), ifAccept_miss hfinal (by decide),
      ifCheck_miss hfinal (by decide), ifCheck_miss hfinal (by decide)]
    refine (ifCheck_hit hfinal (by decide)).trans ((bind_ok (nextKindFrom_here hname (by decide) i)).trans ?_)
    refine (bind_ok (check_miss hfinal (by decide))).trans ((ifAccept_miss hfinal (by decide)).trans ?_)
    exact ifAccept_hit hfinal (by decide)
  refine (bind_ok (annotations_none hfinal (by decide))).trans ?_
  cases h : finalDeclaration tokens (i + 1 : Nat) with
  | ok => exact (bind_ok (hcore.trans h)).trans rfl
  | fail => exact bind_fail (hcore.trans h)

theorem simpleStatement_final (hfinal : KindAt tokens i .finalKw) :
    simpleStatement tokens i = finalDeclaration tokens (i + 1 : Nat) := by
  rw [simpleStatement, bind_ok (budget_ok tokens i), simpleWithin, simpleStep, ifAccept_miss hfinal (by decide),
    ifAccept_hit hfinal (by decide)]

theorem classMember_final (signatureOnly : Bool) (flags : List String) (hfinal : KindAt tokens i .finalKw)
    (hname : KindAt tokens (i + 1) .identifier) :
    classMember signatureOnly flags tokens i = simpleStatement tokens (i + 1 : Nat) := by
  obtain ⟨t, ht, -⟩ := id hfinal
  rw [classMember, bind_ok (peek_ok ht), bind_ok (accept_miss hfinal (by decide))]
  refine (bind_ok (accept_miss hfinal (by decide))).trans ((bind_ok (accept_hit hfinal (by decide))).trans ?_)
  exact ifAccept_miss hname (by decide)

/-- A final with a type is declared at the top level and in a block, and one without is rejected there, since its mark
and value are read with its name.  In a class either is the phrase behind the keyword. -/
theorem final_declared_iff_typed (style : Style) (x : String) (type : Option TypeName) (e : Formula)
    (hs : Stands tokens i (⟨.finalKw, "final"⟩ :: (finalPhrase x type e).words style))
    (hj : i + 1 + ((finalPhrase x type e).words style).length = j) (hend : KindAt tokens j .semicolon) :
    (∀ rule ∈ [statement, simpleStatement], rule tokens i = type.elim
      (.fail (.rejected ⟨"Final variables must be initialized", tokens, j, 5⟩) j)
      fun type => .ok (.finalDecl (.identifier x) e.node (some type.text)) (j + 1 : Nat)) ∧
    ∀ signatureOnly flags, ∃ n, classMember signatureOnly flags tokens i = .ok n (j + 1 : Nat) ∧
      n.unplaced = (finalPhrase x type e).node true := by
  have hname := kindAt_of_finalPhrase hs.2
  constructor
  · have hread := finalDeclaration_eq style x type e hs.2 hj hend
    simp only [mem_cons, not_mem_nil, or_false]
    rintro rule (rfl | rfl)
    · exact (statement_final hs.kindAt hname).trans hread
    · exact (simpleStatement_final hs.kindAt).trans hread
  · intro signatureOnly flags
    subst hj
    rw [classMember_final _ _ hs.kindAt hname, simpleStatement, bind_ok (budget_ok tokens _), simpleWithin]
    obtain ⟨n, _, hread, hnode, -, rfl⟩ := phrase_ok style _ (simpleWithin _) hs.2 (.semicolon hend)
    exact ⟨n, hread, hnode⟩

theorem final_declared_iff_typed_number :
    let words : List Word :=
      [⟨.finalKw, "final"⟩, ⟨.identifier, "x"⟩, ⟨.assign, "="⟩, ⟨.number, "1"⟩, ⟨.semicolon, ";"⟩]
    let tokens := (words.map Word.token).toArray
    ∀ rule ∈ [statement, simpleStatement], rule tokens 0 =
      .fail (.rejected ⟨"Final variables must be initialized", tokens, 4, 5⟩) 4 := by
  intro words tokens
  have hwords : ((words.take 4).map Word.token).map Token.word? =
      (⟨.finalKw, "final"⟩ :: (finalPhrase "x" none (.number "1")).words .sparing).map some := rfl
  have hs := stands_of_map_word? hwords [] ((words.drop 4).map Word.token)
  exact (final_declared_iff_typed .sparing "x" none (.number "1") hs rfl ⟨_, rfl, rfl⟩).1

end BraceLang
