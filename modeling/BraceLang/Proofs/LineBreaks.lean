import BraceLang.Grammar.Declaration
import BraceLang.Proofs.Precedence

/-!
# Line breaks in parentheses

Behind an opening parenthesis of a call or of a list of parameters, behind a comma there and in front of the closing
parenthesis ends of line mean nothing.
-/

namespace BraceLang

open List Parse

def IsBreak (gap : List Word) : Prop := ∀ w ∈ gap, w.kind = .newline

mutual

/-- Words that are read as the node at a level, and the same words with ends of line in the parentheses of calls. -/
inductive Broken : Level → Node → List Word → List Word → Prop where
  | written (style : Style) (f : Formula) : Broken f.level f.node (f.words style) (f.words style)
  | enclosed (M : Level) (h : Broken L n us vs) : Broken M n (enclosed us) (enclosed vs)
  | looser (h : Broken L n us vs) (hrank : Level.rank M ≤ L.rank) : Broken M n us vs
  | sign (s : Sign) (h : Broken .sign n us vs) :
    Broken .sign (.unary s.word.text n) (s.word :: us) (s.word :: vs)
  | binary (o : Operator) (hleft : Broken o.leftLevel n us vs) (hright : Broken o.rightLevel n' us' vs')
    (hguard : o = .same → ∀ ws ∈ [us', vs'], ∀ w ∈ ws.head?, w.kind ≠ .notKw) :
    Broken o.level (o.node n n') (us ++ (o.words ++ us')) (vs ++ (o.words ++ vs'))
  | member (s : String) (h : Broken .access n us vs) :
    Broken .access (.member n s) (us ++ [⟨.dot, "."⟩, ⟨.identifier, s⟩]) (vs ++ [⟨.dot, "."⟩, ⟨.identifier, s⟩])
  | index (h : Broken .access n us vs) (hindex : Broken .disjunction n' us' vs') :
    Broken .access (.subscript n n') (us ++ ⟨.lbracket, "["⟩ :: (us' ++ [⟨.rbracket, "]"⟩]))
      (vs ++ ⟨.lbracket, "["⟩ :: (vs' ++ [⟨.rbracket, "]"⟩]))
  | emptyCall (h : Broken .access n us vs) (hgap : IsBreak gap) :
    Broken .access (.call n []) (us ++ ⟨.lparen, "("⟩ :: ([] ++ [⟨.rparen, ")"⟩]))
      (vs ++ ⟨.lparen, "("⟩ :: (gap ++ [⟨.rparen, ")"⟩]))
  | call (h : Broken .access n us vs) (hgap : IsBreak gap) (hargs : BrokenArguments ns us' vs') :
    Broken .access (.call n ns) (us ++ ⟨.lparen, "("⟩ :: ([] ++ us' ++ [⟨.rparen, ")"⟩]))
      (vs ++ ⟨.lparen, "("⟩ :: (gap ++ vs' ++ [⟨.rparen, ")"⟩]))

/-- Arguments up to the closing parenthesis, with ends of line behind the commas and behind the last argument. -/
inductive BrokenArguments : List Node → List Word → List Word → Prop where
  | last (s : Option String) (h : Broken .disjunction n us vs) (hgap : IsBreak gap) :
    BrokenArguments [Formula.argumentNode s n] (nameWords s ++ us ++ []) (nameWords s ++ vs ++ gap)
  | more (s : Option String) (h : Broken .disjunction n us vs) (hgap : IsBreak gap)
    (rest : BrokenArguments ns us' vs') :
    BrokenArguments (Formula.argumentNode s n :: ns) (nameWords s ++ us ++ ⟨.comma, ","⟩ :: ([] ++ us'))
      (nameWords s ++ vs ++ ⟨.comma, ","⟩ :: (gap ++ vs'))

end

theorem isBreak_nil : IsBreak [] := by simp [IsBreak]

mutual

theorem Broken.parsed : Broken L n us vs → Parsed L n us ∧ Parsed L n vs
  | .written style f => ⟨parsed_words style f, parsed_words style f⟩
  | .enclosed M h => h.parsed.imp (parsed_enclosed · M) (parsed_enclosed · M)
  | .looser h hrank => h.parsed.imp (·.lower hrank) (·.lower hrank)
  | .sign s h => h.parsed.imp (fun h => (reads_sign s h.reads).parsed)
      fun h => (reads_sign s h.reads).parsed
  | .binary o hleft hright hguard => by
    obtain ⟨hus, hvs⟩ := hleft.parsed
    obtain ⟨hus', hvs'⟩ := hright.parsed
    exact ⟨parsed_binary o hus hus' fun ho => hguard ho _ (by simp),
      parsed_binary o hvs hvs' fun ho => hguard ho _ (by simp)⟩
  | .member s h => h.parsed.imp (fun h => (opens_member (h.opens (.inr rfl)) s).parsed (.inr rfl))
      fun h => (opens_member (h.opens (.inr rfl)) s).parsed (.inr rfl)
  | .index h hindex => by
    obtain ⟨hus, hvs⟩ := h.parsed
    obtain ⟨hus', hvs'⟩ := hindex.parsed
    exact ⟨(opens_index (hus.opens (.inr rfl)) hus'.reads).parsed (.inr rfl),
      (opens_index (hvs.opens (.inr rfl)) hvs'.reads).parsed (.inr rfl)⟩
  | .emptyCall h hgap => h.parsed.imp (fun h => (opens_call_none (h.opens (.inr rfl)) isBreak_nil).parsed (.inr rfl))
      fun h => (opens_call_none (h.opens (.inr rfl)) hgap).parsed (.inr rfl)
  | .call h hgap hargs => by
    obtain ⟨hus, hvs⟩ := h.parsed
    obtain ⟨hus', hvs'⟩ := hargs.arguments
    exact ⟨(opens_call (hus.opens (.inr rfl)) isBreak_nil hus').parsed (.inr rfl),
      (opens_call (hvs.opens (.inr rfl)) hgap hvs').parsed (.inr rfl)⟩

theorem BrokenArguments.arguments :
    BrokenArguments ns us vs → Arguments ns us ∧ Arguments ns vs
  | .last s h hgap => h.parsed.imp (fun h => .last ⟨s, _, _, rfl, rfl, h.reads⟩ isBreak_nil)
      fun h => .last ⟨s, _, _, rfl, rfl, h.reads⟩ hgap
  | .more s h hgap rest => by
    obtain ⟨hus, hvs⟩ := h.parsed
    obtain ⟨hus', hvs'⟩ := rest.arguments
    exact ⟨.more ⟨s, _, _, rfl, rfl, hus.reads⟩ isBreak_nil hus', .more ⟨s, _, _, rfl, rfl, hvs.reads⟩ hgap hvs'⟩

end

/-! ### Parameters -/

/-- A parameter as it is written, with a type of one word and a default of one token. -/
structure WrittenParameter where
  name : String
  type : Option Word
  default : Option Word

namespace WrittenParameter

def words (p : WrittenParameter) : List Word :=
  ⟨.identifier, p.name⟩ :: (p.type.toList.flatMap ([⟨.colon, ":"⟩, ·]) ++
    p.default.toList.flatMap ([⟨.assign, "="⟩, ·]))

def node (p : WrittenParameter) : Node :=
  .parameter p.name (p.type.map Word.text) (p.default.elim .absent fun w => .text w.text) []

structure Valid (p : WrittenParameter) : Prop where
  type : ∀ w ∈ p.type, w.kind ∈ [.identifier, .noneKw]
  default : ∀ w ∈ p.default, w.kind ≠ .eof

end WrittenParameter

/-- The words of parameters behind the first one, each with the ends of line between its comma and itself. -/
def moreParameterWords (ps : List (List Word × WrittenParameter)) : List Word :=
  ps.flatMap fun p => ⟨.comma, ","⟩ :: (p.1 ++ p.2.words)

/-- The words of parameters, each with the ends of line in front of it, and those behind the last one. -/
def parameterWords : List (List Word × WrittenParameter) → List Word → List Word
  | [], gap => gap
  | p :: ps, gap => p.1 ++ (p.2.words ++ (moreParameterWords ps ++ gap))

section

variable {tokens : Array Token} {i : Nat} {p : WrittenParameter} {gap : List Word}
  {ps : List (List Word × WrittenParameter)}

theorem simpleType_ok (hs : Stands tokens i (w :: rest))
    (hw : w.kind ∈ [.identifier, .noneKw]) : simpleType false complaint tokens i = .ok (some w.text) (i + 1 : Nat) := by
  obtain ⟨⟨t, ht, hk, hv⟩, _⟩ := hs
  have hne : w.kind ≠ .eof := (by decide : ∀ kind ∈ [.identifier, .noneKw], kind ≠ TokenKind.eof) _ hw
  show (check [.identifier, .noneKw] >>= _) tokens i = _
  rw [ifCheck_hit ⟨t, ht, hk⟩ ⟨hne, hw⟩, bind_ok (advance_ok ht (hk ▸ hne)), hv]
  rfl

theorem default_ok {α : Type} {f : Scalar → Parse α} (hs : Stands tokens i [⟨.assign, "="⟩, w])
    (hw : w.kind ≠ .eof) :
    (accept [.assign] >>= fun b => if b then advance >>= fun t => pure (t.value.elim .absent .text) >>= f
      else pure .absent >>= f) tokens i = f (.text w.text) tokens (i + 2 : Nat) := by
  obtain ⟨⟨t, ht, hk, hv⟩, _⟩ := hs.2
  rw [ifAccept_hit hs.kindAt (by decide), bind_ok (advance_ok ht (hk ▸ hw)), hv]
  rfl

theorem parameter_ok (hp : p.Valid) (hs : Stands tokens i p.words)
    (hend : p.default = none → Ends tokens [.colon, .assign] (i + p.words.length)) :
    parameter tokens i = .ok p.node (i + p.words.length : Nat) := by
  obtain ⟨name, type, default⟩ := p
  obtain ⟨⟨t, ht, hkind, hvalue⟩, hrest⟩ := hs
  refine expect_bind ⟨t, ht, hkind⟩ (by decide) fun t' ht' => ?_
  cases ht.symm.trans ht'
  rw [Token.text, hvalue]
  dsimp only
  cases type with
  | none =>
    cases default with
    | none =>
      obtain ⟨kind, hk, hn⟩ : Ends tokens _ (i + 1) := hend rfl
      rw [ifAccept_miss hk (by simp_all)]
      exact ifAccept_miss hk (by simp_all)
    | some d =>
      rw [ifAccept_miss hrest.kindAt (by decide)]
      exact default_ok hrest (hp.default d rfl)
  | some w =>
    rw [ifAccept_hit hrest.kindAt (by decide), bind_ok (simpleType_ok hrest.2 (hp.type w rfl))]
    cases default with
    | none =>
      obtain ⟨kind, hk, hn⟩ := hend rfl
      exact ifAccept_miss hk (by simp_all)
    | some d => exact default_ok hrest.2.2 (hp.default d rfl)

def IsParameter (n : Node) (ws : List Word) : Prop :=
  ∃ gap p, n = WrittenParameter.node p ∧ ws = gap ++ p.words ∧ p.Valid ∧ IsBreak gap

theorem separated_moreParameterWords (h : ∀ p ∈ ps, p.2.Valid ∧ IsBreak p.1) :
    Separated IsParameter (ps.map fun p => p.2.node) (moreParameterWords ps) := by
  induction ps with
  | nil => exact .nil
  | cons p ps ih =>
    obtain ⟨hp, hps⟩ := forall_mem_cons.1 h
    exact .cons ⟨p.1, p.2, rfl, rfl, hp⟩ (ih hps)

theorem skip_parameter_ok (hp : p.Valid) (hgap : IsBreak gap) (hs : Stands tokens i (gap ++ p.words))
    (hend : Ends tokens [.colon, .assign] (i + (gap ++ p.words).length)) :
    skipNewlines tokens i = .ok () (i + gap.length : Nat) ∧
      parameter tokens (i + gap.length : Nat) = .ok p.node (i + (gap ++ p.words).length : Nat) := by
  obtain ⟨hg, hs⟩ := stands_append.1 hs
  rw [length_append, ← Nat.add_assoc] at hend ⊢
  exact ⟨skipNewlines_ok (hg.lines hgap) hs.kindAt TokenKind.noConfusion, parameter_ok hp hs fun _ => hend⟩

theorem parameters_ok (h : ∀ p ∈ ps, p.2.Valid ∧ IsBreak p.1) (hgap : IsBreak gap)
    (hs : Stands tokens i (parameterWords ps gap)) (hk : KindAt tokens (i + (parameterWords ps gap).length) .rparen) :
    parameters tokens i = .ok (ps.map fun p => p.2.node) (i + (parameterWords ps gap).length : Nat) := by
  cases ps with
  | nil =>
    rw [parameters, parenthesized, bind_ok (skipNewlines_ok (hs.lines hgap) hk (by decide))]
    dsimp only
    rw [ifCheck_hit hk (by decide)]
    exact bind_ok (skipNewlines_ok (lines_self tokens _) hk (by decide))
  | cons p ps =>
    obtain ⟨hp, hps⟩ := forall_mem_cons.1 h
    rw [parameterWords, ← append_assoc] at hs hk ⊢
    obtain ⟨hfirst, hs⟩ := stands_append.1 hs
    obtain ⟨hmore, hlast⟩ := stands_append.1 hs
    have hsep := separated_moreParameterWords hps
    rw [length_append, @length_append _ (moreParameterWords ps), ← Nat.add_assoc, ← Nat.add_assoc] at hk ⊢
    -- behind the last parameter stands an end of line or the closing parenthesis
    obtain ⟨closing, hclosing, hc⟩ : Ends tokens [.comma, .colon, .assign] _ :=
      (hlast.lines hgap).ends hk (by decide) (by decide)
    have hnext : ∀ {j}, (∃ kind, KindAt tokens j kind ∧ (kind = .comma ∨ kind = closing)) →
        Ends tokens [.colon, .assign] j := by
      rintro j ⟨kind, hk, rfl | rfl⟩
      · exact ⟨_, hk, by decide⟩
      · exact ⟨_, hk, by simp_all⟩
    obtain ⟨hskip, hread⟩ := skip_parameter_ok hp.1 hp.2 hfirst (hnext (hsep.kindAt hmore hclosing))
    have hname : KindAt tokens (i + p.1.length) .identifier := (stands_append.1 hfirst).2.kindAt
    rw [parameters, parenthesized, bind_ok hskip]
    dsimp only
    rw [ifCheck_miss hname (by decide), bind_ok hread, bind_ok (iterate_separated hsep ?_ ?_ (Nat.lt_succ_self _) hmore
      hclosing), bind_ok (skipNewlines_ok (hlast.lines hgap) hk (by decide))]
    · rfl
    · intro acc j hj
      rw [ifAccept_miss hj (by simp_all)]
      rfl
    · rintro acc j n _ ⟨gap, q, rfl, rfl, hq, hbreak⟩ _ hcomma hws hend
      obtain ⟨hskip, hread⟩ := skip_parameter_ok hq hbreak hws (hnext hend)
      rw [ifAccept_hit hcomma (by decide), bind_ok hskip, bind_ok hread]
      rfl

end

/-- Ends of line in the parentheses of calls change nothing about the tree that is read and about the place where the
cursor is left behind the words; and those in the parentheses of parameters change nothing about the parameters. -/
theorem line_breaks_insignificant {L : Level} {n : Node} {us vs gap : List Word}
    {ps : List (List Word × WrittenParameter)} (h : Broken L n us vs) (hps : ∀ p ∈ ps, p.2.Valid ∧ IsBreak p.1)
    (hgap : IsBreak gap) :
    (∀ ws ∈ [us, vs], ∀ (tokens : Array Token) (i l : Nat) (kind : TokenKind), Stands tokens i ws →
      Lines tokens (i + ws.length) l → KindAt tokens l kind → kind ∉ wholeMarks →
      expression? tokens i = .ok n (min (i + ws.length + 2) l : Nat)) ∧
    ∀ ws ∈ [parameterWords (ps.map fun p => ([], p.2)) [], parameterWords ps gap], ∀ (tokens : Array Token) (i : Nat),
      Stands tokens i ws → KindAt tokens (i + ws.length) .rparen →
      parameters tokens i = .ok (ps.map fun p => p.2.node) (i + ws.length : Nat) := by
  constructor
  · have hreads : ∀ ws ∈ [us, vs], Reads .disjunction n ws := by
      rw [forall_mem_cons, forall_mem_singleton]
      exact h.parsed.imp (fun h => (h.lower (by cases L <;> decide)).reads) fun h =>
        (h.lower (by cases L <;> decide)).reads
    intro ws hws tokens i l kind hs hl hk hkind
    have hle := hl.1
    have hlt := hk.lt_size
    exact (hreads ws hws).beforeLines (m := (tokens.size - i : Int).toNat + 2) (by omega) hs hl hk hkind
  · rw [forall_mem_cons, forall_mem_singleton]
    refine ⟨fun tokens i hs hk => ?_, fun tokens i hs hk => parameters_ok hps hgap hs hk⟩
    have hplain : ∀ p ∈ ps.map fun p => (([] : List Word), p.2), p.2.Valid ∧ IsBreak p.1 := fun p hp => by
      obtain ⟨q, hq, rfl⟩ := mem_map.1 hp
      exact ⟨(hps q hq).1, isBreak_nil⟩
    rw [parameters_ok hplain isBreak_nil hs hk, map_map]
    rfl

theorem line_breaks_insignificant_nested :
    let tokens (ws : List Word) : Array Token := (ws.map fun w => ⟨w.kind, some w.text, 1, 0, none⟩).toArray
    let line : Word := ⟨.newline, "\\\\n"⟩
    let name (s : String) : Word := ⟨.identifier, s⟩
    expression? (tokens [name "f", ⟨.lparen, "("⟩, line, name "a", ⟨.comma, ","⟩, line, line, name "k",
      ⟨.assign, "="⟩, name "g", ⟨.lparen, "("⟩, line, ⟨.rparen, ")"⟩, line, ⟨.rparen, ")"⟩,
      ⟨.semicolon, ";"⟩]) 0 =
      .ok (.call (.identifier "f") [.identifier "a", .argument (some "k") (.call (.identifier "g") [])]) 15 ∧
    parameters (tokens [line, name "a", ⟨.colon, ":"⟩, name "int", ⟨.comma, ","⟩, line, line, name "b",
      line, ⟨.rparen, ")"⟩]) 0 = .ok [.parameter "a" (some "int") .absent [], .parameter "b" none .absent []] 9 := by
  intro tokens line name
  have hline : IsBreak [line] := by simp [IsBreak, line]
  have hlines : IsBreak [line, line] := by simp [IsBreak, line]
  have hname (s : String) : Broken .access (.identifier s) [name s] [name s] :=
    .looser (.written .sparing (.name s)) (Nat.le_succ _)
  have hcall := (hname "f").call hline (.more none ((hname "a").looser (by decide)) hlines
    (.last (some "k") (((hname "g").emptyCall hline).looser (by decide)) hline))
  have hsig : ∀ p ∈ [([line], WrittenParameter.mk "a" (some (name "int")) none),
      ([line, line], ⟨"b", none, none⟩)], p.2.Valid ∧ IsBreak p.1 := by
    rw [forall_mem_cons, forall_mem_singleton]
    exact ⟨⟨⟨by simp [name], by simp⟩, hline⟩, ⟨by simp, by simp⟩, hlines⟩
  have hread := line_breaks_insignificant hcall hsig hline
  constructor
  · refine hread.1 _ (mem_cons_of_mem _ (mem_singleton_self _)) _ 0 15 .semicolon ?_ (lines_self _ 15) ⟨_, rfl, rfl⟩
      (by decide)
    simp [Stands, tokens, name, nameWords]
  · refine hread.2 _ (mem_cons_of_mem _ (mem_singleton_self _)) _ 0 ?_ ⟨_, rfl, rfl⟩
    simp [Stands, tokens, name, parameterWords, moreParameterWords, WrittenParameter.words]

end BraceLang
