import BraceLang.Proofs.Reading

/-!
# Reading operands

What an operator can stand between: names and literals, everything in brackets, and access to members, calls and
indices behind them.
-/

namespace BraceLang

open List Parse

variable {closing : TokenKind} {P : Node → List Word → Prop} {step : List Node → Parse (List Node ⊕ List Node)}

inductive Separated (P : Node → List Word → Prop) : List Node → List Word → Prop where
  | nil : Separated P [] []
  | cons {n : Node} {ns : List Node} {us ws : List Word} (head : P n us) (tail : Separated P ns ws) :
    Separated P (n :: ns) (⟨.comma, ","⟩ :: (us ++ ws))

def IsArgument (n : Node) (ws : List Word) : Prop :=
  ∃ s value us, n = Formula.argumentNode s value ∧ ws = nameWords s ++ us ∧ Reads .disjunction value us

/-- Words of arguments up to the closing parenthesis, with line ends behind the commas and behind the last argument. -/
inductive Arguments : List Node → List Word → Prop where
  | last {n : Node} {us g : List Word} (h : IsArgument n us) (hgap : ∀ w ∈ g, w.kind = .newline) :
    Arguments [n] (us ++ g)
  | more {n : Node} {ns : List Node} {us g ws : List Word} (h : IsArgument n us)
    (hgap : ∀ w ∈ g, w.kind = .newline) (rest : Arguments ns ws) :
    Arguments (n :: ns) (us ++ ⟨.comma, ","⟩ :: (g ++ ws))

def IsEntry (n : Node) (ws : List Word) : Prop :=
  ∃ key value us vs, n = .entry key value ∧ ws = us ++ ⟨.colon, ":"⟩ :: vs ∧ Reads .disjunction key us ∧
    Reads .disjunction value vs

section

variable {tokens : Array Token} {i m l : Nat} {n : Node} {ns : List Node} {us vs ws gap : List Word} {n' : Node}
  {w : Word}

theorem Separated.kindAt (h : Separated P ns ws) (hs : Stands tokens i ws)
    (hk : KindAt tokens (i + ws.length) closing) : ∃ kind, KindAt tokens i kind ∧ (kind = .comma ∨ kind = closing) := by
  cases h with
  | nil => exact ⟨closing, hk, .inr rfl⟩
  | cons => exact ⟨.comma, hs.kindAt, .inl rfl⟩

theorem Reads.item (h : Reads .disjunction n us) (hm : us.length < m)
    (hs : Stands tokens i us) (hk : ∃ kind, KindAt tokens (i + us.length) kind ∧ (kind = .comma ∨ kind = closing))
    (hclosing : closing ∉ wholeMarks) : expressionWithin m tokens i = .ok n (i + us.length : Nat) := by
  obtain ⟨kind, hk, rfl | rfl⟩ := hk
  · exact h.before hm hs hk (by decide)
  · exact h.before hm hs hk hclosing

/-! ### Loops over commas -/

theorem iterate_separated (h : Separated P ns ws)
    (hdone : ∀ {acc j}, KindAt tokens j closing → step acc tokens (j : Nat) = .ok (.inr acc.reverse) j)
    (hmore : ∀ {acc j n us}, P n us → us.length < m → KindAt tokens j .comma → Stands tokens (j + 1) us →
      (∃ kind, KindAt tokens (j + 1 + us.length) kind ∧ (kind = .comma ∨ kind = closing)) →
      step acc tokens (j : Nat) = .ok (.inl (n :: acc)) (j + 1 + us.length : Nat)) :
    ∀ {i : Nat} {acc : List Node}, ws.length < m → Stands tokens i ws → KindAt tokens (i + ws.length) closing →
      iterate step acc tokens i = .ok (acc.reverse ++ ns) (i + ws.length : Nat) := by
  induction h with
  | nil =>
    intro i acc _ _ hk
    rw [append_nil]
    exact iterate_done (hdone hk)
  | @cons n ns us ws head tail ih =>
    intro i acc hm hs hk
    obtain ⟨hus, hws⟩ := stands_append.1 hs.2
    simp only [length_cons, length_append] at hm hk ⊢
    have hlen : i + (us.length + ws.length + 1) = i + 1 + us.length + ws.length := by omega
    rw [hlen] at hk ⊢
    have hrest : iterate step (n :: acc) tokens (i + 1 + us.length : Nat) = .ok ((n :: acc).reverse ++ ns) _ :=
      ih (by omega) hws hk
    rw [reverse_cons, List.append_assoc, singleton_append] at hrest
    exact iterate_next hs.kindAt.lt_size (by omega) (hmore head (by omega) hs.kindAt hus (tail.kindAt hws hk)) hrest

theorem iterate_items (h : Separated P ns ws)
    (hfirst : ∀ {j n us}, P n us → Stands tokens j us → ∃ kind ∈ Level.disjunction.startKinds, KindAt tokens j kind)
    (hlast : ∀ {acc j n us}, P n us → us.length < m → Stands tokens j us → KindAt tokens (j + us.length) closing →
      step acc tokens (j : Nat) = .ok (.inr (n :: acc).reverse) (j + us.length : Nat))
    (hmore : ∀ {acc j n us kind}, P n us → us.length < m → Stands tokens j us → KindAt tokens (j + us.length) .comma →
      KindAt tokens (j + us.length + 1) kind → kind ∈ Level.disjunction.startKinds →
      step acc tokens (j : Nat) = .ok (.inl (n :: acc)) (j + us.length + 1 : Nat)) :
    ∀ {n : Node} {us : List Word} {i : Nat} {acc : List Node}, P n us → us.length + ws.length < m →
      Stands tokens i (us ++ ws) → KindAt tokens (i + us.length + ws.length) closing →
      iterate step acc tokens i = .ok (acc.reverse ++ n :: ns) (i + us.length + ws.length : Nat) := by
  induction h with
  | nil =>
    intro n us i acc hn hm hs hk
    rw [append_nil] at hs
    refine iterate_done ?_
    rw [hlast hn hm hs hk, reverse_cons]
    rfl
  | @cons n' ns us' ws head tail ih =>
    intro n us i acc hn hm hs hk
    obtain ⟨hus, hrest⟩ := stands_append.1 hs
    obtain ⟨kind, hkind, hnext⟩ := hfirst head (stands_append.1 hrest.2).1
    simp only [length_cons, length_append] at hm hk ⊢
    have hlen : i + us.length + (us'.length + ws.length + 1) = i + us.length + 1 + us'.length + ws.length := by omega
    rw [hlen] at hk ⊢
    have hloop : iterate step (n :: acc) tokens (i + us.length + 1 : Nat) = .ok ((n :: acc).reverse ++ n' :: ns) _ :=
      ih head (by omega) hrest.2 hk
    rw [reverse_cons, List.append_assoc, singleton_append] at hloop
    obtain ⟨_, _, hi⟩ := hfirst hn hus
    exact iterate_next hi.lt_size (by omega) (hmore hn (by omega) hus hrest.kindAt hnext hkind) hloop

variable {items : List Node} {kind : TokenKind}

theorem iterate_itemStep (h : Separated (Reads .disjunction) ns ws) (hm : ws.length < m) (hs : Stands tokens i ws)
    (hk : KindAt tokens (i + ws.length) .rbracket) :
    iterate (itemStep (expressionWithin m)) items tokens i = .ok (items.reverse ++ ns) (i + ws.length : Nat) := by
  refine iterate_separated h ?_ ?_ hm hs hk
  · intro acc j hk
    rw [itemStep, ifAccept_miss hk (by decide)]
    rfl
  · intro acc j n us hn hlen hcomma hus hnext
    rw [itemStep, ifAccept_hit hcomma (by decide), bind_ok (operand_ok (hn.item hlen hus hnext (by decide)) hn.present)]
    rfl

theorem iterate_setItemStep (h : Separated (Reads .disjunction) ns ws) (hm : ws.length < m) (hs : Stands tokens i ws)
    (hk : KindAt tokens (i + ws.length) .rbrace) :
    iterate (setItemStep (expressionWithin m)) items tokens i = .ok (items.reverse ++ ns) (i + ws.length : Nat) := by
  refine iterate_separated h ?_ ?_ hm hs hk
  · intro acc j hk
    rw [setItemStep, ifAccept_miss hk (by decide)]
    rfl
  · intro acc j n us hn hlen hcomma hus hnext
    rw [setItemStep, ifAccept_hit hcomma (by decide), bind_ok (hn.item hlen hus hnext (by decide)),
      if_neg (by simp [hn.present])]
    rfl

theorem iterate_entryStep (h : Separated IsEntry ns ws) (hm : ws.length < m)
    (hs : Stands tokens i ws) (hk : KindAt tokens (i + ws.length) .rbrace) :
    iterate (entryStep (expressionWithin m)) entries tokens i = .ok (entries.reverse ++ ns) (i + ws.length : Nat) := by
  refine iterate_separated h ?_ ?_ hm hs hk
  · intro acc j hk
    rw [entryStep, ifAccept_miss hk (by decide)]
    rfl
  · rintro acc j n _ ⟨key, value, us, vs, rfl, rfl, hkey, hvalue⟩ hlen hcomma hws hnext
    obtain ⟨hus, hrest⟩ := stands_append.1 hws
    simp only [length_append, length_cons] at hlen hnext ⊢
    have hend : j + 1 + (us.length + (vs.length + 1)) = j + 1 + us.length + 1 + vs.length := by omega
    rw [hend] at hnext ⊢
    rw [entryStep, ifAccept_hit hcomma (by decide),
      bind_ok (hkey.before (m := m) (by omega) hus hrest.kindAt (by decide)), if_neg (by simp [hkey.present])]
    refine expect_bind hrest.kindAt (by decide) fun t _ => ?_
    rw [bind_ok (operand_ok (hvalue.item (by omega) hrest.2 hnext (by decide)) hvalue.present)]
    rfl

theorem startKinds_ne (h : kind ∈ Level.disjunction.startKinds) :
    kind ≠ .newline ∧ kind ∉ [.rparen] ∧ kind ∉ [.rbracket] ∧ kind ∉ [.rbrace] ∧ kind ∉ [.colon] :=
  (by decide : ∀ kind ∈ Level.disjunction.startKinds,
    kind ≠ .newline ∧ kind ∉ [.rparen] ∧ kind ∉ [.rbracket] ∧ kind ∉ [.rbrace] ∧ kind ∉ [.colon]) kind h

theorem iterate_tupleItemStep (h : Separated (Reads .disjunction) ns ws) (hn : Reads .disjunction n us)
    (hm : us.length + ws.length < m) (hs : Stands tokens i (us ++ ws))
    (hk : KindAt tokens (i + us.length + ws.length) .rparen) :
    iterate (tupleItemStep (expressionWithin m)) items tokens i =
      .ok (items.reverse ++ n :: ns) (i + us.length + ws.length : Nat) := by
  refine iterate_items h (fun hn hus => hn.starts.kindAt hus) ?_ ?_ hn hm hs hk
  · intro acc j n us hn hlen hus hk
    rw [tupleItemStep, bind_ok (hn.before hlen hus hk (by decide)), if_neg (by simp [hn.present]),
      bind_ok (accept_miss hk (by decide))]
    rfl
  · intro acc j n us kind hn hlen hus hcomma hnext hkind
    rw [tupleItemStep, bind_ok (hn.before hlen hus hcomma (by decide)), if_neg (by simp [hn.present]),
      bind_ok (accept_hit hcomma (by decide)), if_neg (by decide), ifCheck_miss hnext (startKinds_ne hkind).2.1]
    rfl

/-! ### Arguments -/

/-- Behind the first word of an expression stands no mark that would make it the name of an argument. -/
theorem Reads.ends_second (h : Reads .disjunction n us) (hs : Stands tokens i us)
    (hend : Ends tokens [.assign] (i + us.length)) : Ends tokens [.assign] (i + 1) := by
  have hstarts := h.starts
  match us, hstarts with
  | [_], _ => exact hend
  | _ :: v :: us, hstarts =>
    refine ⟨v.kind, hs.2.kindAt, fun hm => hstarts.2 v rfl ?_⟩
    rw [mem_singleton.1 hm]
    decide

theorem callArgument_ok (h : IsArgument n ws) (hlen : ws.length < m) (hs : Stands tokens i ws)
    (hl : Lines tokens (i + ws.length) l) (hk : KindAt tokens l kind) (hend : kind ∉ wholeMarks) :
    callArgument (expressionWithin m) tokens i = .ok n (min (i + ws.length + 2) l : Nat) := by
  obtain ⟨s, value, us, rfl, rfl, hvalue⟩ := h
  cases s with
  | some s =>
    obtain ⟨⟨t, ht, hkind, hv⟩, hrest⟩ := hs
    have hkind : t.kind = .identifier := hkind
    have hwords : i + (nameWords (some s) ++ us).length = i + 1 + 1 + us.length := by
      simp only [nameWords, length_append, length_cons, length_nil]
      omega
    rw [hwords] at hl ⊢
    have htext : t.text = s := by rw [Token.text, hv, Option.getD_some]
    have hread := hvalue.beforeLines (m := m) (by omega) hrest.2 hl hk hend
    rw [callArgument, ifCheck_hit ⟨t, ht, hkind⟩ (by decide)]
    show (advance >>= _) tokens i = _
    rw [bind_ok (advance_ok ht (by rw [hkind]; decide)), ifAccept_hit hrest.kindAt (by decide),
      bind_ok (operand_ok hread hvalue.present), htext]
    rfl
  | none =>
    have hread := hvalue.beforeLines hlen hs hl hk hend
    obtain ⟨kind', hmem, hfirst⟩ := hvalue.starts.kindAt hs
    by_cases hid : kind' = .identifier
    · -- the rule steps over the name, finds no mark behind it and goes back
      subst hid
      obtain ⟨t, ht, hkind⟩ := hfirst
      have hassign : Ends tokens [.assign] (i + us.length) :=
        hl.ends hk (fun hm => hend (by rw [mem_singleton.1 hm]; decide)) (by decide)
      obtain ⟨kind', hk', hn'⟩ := hvalue.ends_second hs hassign
      rw [callArgument, ifCheck_hit ⟨t, ht, hkind⟩ (by decide)]
      show (advance >>= _) tokens i = _
      rw [bind_ok (advance_ok ht (by rw [hkind]; decide)), ifAccept_miss hk' hn']
      exact operand_ok hread hvalue.present
    · rw [callArgument, ifCheck_miss hfirst (by simpa using hid)]
      exact operand_ok hread hvalue.present

theorem IsArgument.kindAt (h : IsArgument n us) (hs : Stands tokens i us) :
    ∃ kind ∈ Level.disjunction.startKinds, KindAt tokens i kind := by
  obtain ⟨s, value, us, rfl, rfl, hvalue⟩ := h
  cases s with
  | none => exact hvalue.starts.kindAt hs
  | some => exact ⟨.identifier, by decide, hs.kindAt⟩

theorem Arguments.kindAt (h : Arguments ns ws) (hs : Stands tokens i ws) :
    ∃ kind ∈ Level.disjunction.startKinds, KindAt tokens i kind := by
  cases h with
  | last h | more h => exact h.kindAt (stands_append.1 hs).1

theorem iterate_argumentStep (h : Arguments ns ws) : ∀ {i : Nat} {a : List Node}, ws.length < m →
    Stands tokens i ws → KindAt tokens (i + ws.length) .rparen →
    ∃ k : Nat, iterate (argumentStep (expressionWithin m)) a tokens i = .ok (a.reverse ++ ns) k ∧
      Lines tokens k (i + ws.length) := by
  induction h with
  | @last n us gap h hgap =>
    intro i acc hm hs hk
    obtain ⟨hus, hlines⟩ := stands_append.1 hs
    simp only [length_append] at hm hk ⊢
    have hlines := hlines.lines hgap
    rw [Nat.add_assoc] at hlines
    have hrest := hlines.within (k := min (i + us.length + 2) (i + (us.length + gap.length))) (by omega) (by omega)
      (Nat.le_refl _)
    obtain ⟨kind, hkind, hcomma⟩ : Ends tokens [.comma] _ := hrest.ends hk (by decide) (by decide)
    refine ⟨_, iterate_done ?_, hrest⟩
    rw [argumentStep, bind_ok (callArgument_ok (m := m) h (by omega) hus hlines hk (by decide)),
      ifAccept_miss hkind hcomma, reverse_cons]
    rfl
  | @more n ns us gap ws h hgap rest ih =>
    intro i acc hm hs hk
    obtain ⟨hus, hcomma⟩ := stands_append.1 hs
    obtain ⟨hlines, hws⟩ := stands_append.1 hcomma.2
    have hlen : i + (us ++ ⟨.comma, ","⟩ :: (gap ++ ws)).length = i + us.length + 1 + gap.length + ws.length := by
      simp only [length_append, length_cons]
      omega
    simp only [length_append, length_cons] at hm
    rw [hlen] at hk ⊢
    obtain ⟨kind, hmem, hfirst⟩ := rest.kindAt hws
    have hread := callArgument_ok (m := m) h (by omega) hus (lines_self _ _) hcomma.kindAt (by decide)
    rw [Nat.min_eq_right (Nat.le_add_right _ 2)] at hread
    obtain ⟨k, hloop, hrest⟩ := ih (a := n :: acc) (by omega) hws hk
    rw [reverse_cons, List.append_assoc, singleton_append] at hloop
    obtain ⟨_, _, hi⟩ := h.kindAt hus
    refine ⟨k, iterate_next hi.lt_size (j := i + us.length + 1 + gap.length) (by omega) ?_ hloop, hrest⟩
    rw [argumentStep, bind_ok hread, ifAccept_hit hcomma.kindAt (by decide),
      bind_ok (skipNewlines_ok (hlines.lines hgap) hfirst (startKinds_ne hmem).1)]
    rfl

theorem callArguments_ok (hgap : ∀ w ∈ gap, w.kind = .newline) (h : Arguments ns ws) (hm : ws.length < m)
    (hs : Stands tokens i (gap ++ ws)) (hk : KindAt tokens (i + (gap ++ ws).length) .rparen) :
    callArguments (expressionWithin m) tokens i = .ok ns (i + (gap ++ ws).length : Nat) := by
  obtain ⟨hlines, hws⟩ := stands_append.1 hs
  rw [length_append, ← Nat.add_assoc] at hk ⊢
  obtain ⟨kind, hmem, hfirst⟩ := h.kindAt hws
  obtain ⟨k, hloop, hrest⟩ := iterate_argumentStep h (a := []) hm hws hk
  rw [callArguments, bind_ok (skipNewlines_ok (hlines.lines hgap) hfirst (startKinds_ne hmem).1),
    ifCheck_miss hfirst (startKinds_ne hmem).2.1, bind_ok hloop]
  dsimp only
  rw [bind_ok (skipNewlines_ok hrest hk (by decide))]
  rfl

theorem callArguments_none (hgap : ∀ w ∈ gap, w.kind = .newline) (hs : Stands tokens i gap)
    (hk : KindAt tokens (i + gap.length) .rparen) :
    callArguments (expressionWithin m) tokens i = .ok [] (i + gap.length : Nat) := by
  rw [callArguments, bind_ok (skipNewlines_ok (hs.lines hgap) hk (by decide)), ifCheck_hit hk (by decide)]
  show (skipNewlines >>= _) tokens (i + gap.length : Nat) = _
  rw [bind_ok (skipNewlines_ok (lines_self _ _) hk (by decide))]
  rfl

/-! ### Members, calls and indices -/

theorem opens_access (h : Opens .access n us) (hp : n'.isPresent)
    (hhead : ∀ v ∈ vs.head?, v.kind ∉ labelMarks) (hpos : 0 < vs.length)
    (hstep : ∀ {tokens : Array Token} {j m : Nat}, vs.length ≤ m → Stands tokens j vs →
      postfixStep (expressionWithin m) n tokens j = .ok (.inl n') (j + vs.length : Nat)) :
    Opens .access n' (us ++ vs) := by
  refine ⟨hp, h.starts.append hhead, ?_⟩
  intro tokens i j m b k hm hs hstop hloop
  obtain ⟨hus, hvs⟩ := stands_append.1 hs
  rw [length_append] at hm hstop
  have hj : i + us.length + vs.length = j := by rw [← hstop]; omega
  refine h.opens (by omega) hus rfl (iterate_next (hvs.lt_size hpos) (by omega) (hstep (by omega) hvs) ?_)
  rw [hj]
  exact hloop

theorem opens_member (h : Opens .access n us) (s : String) :
    Opens .access (.member n s) (us ++ [⟨.dot, "."⟩, ⟨.identifier, s⟩]) := by
  refine opens_access h rfl (fun v hv => by cases hv; decide) (Nat.succ_pos _) ?_
  intro tokens j m hm hs
  obtain ⟨⟨t, ht, hk, hv⟩, _⟩ := hs.2
  have hk : t.kind = .identifier := hk
  have htext : t.text = s := by rw [Token.text, hv, Option.getD_some]
  rw [postfixStep, ifAccept_hit hs.kindAt (by decide), bind_ok (check_hit ⟨t, ht, hk⟩ (by decide))]
  show (advance >>= _) tokens (j + 1 : Nat) = _
  rw [bind_ok (advance_ok ht (by rw [hk]; decide)), htext]
  rfl

theorem opens_call_of_arguments (vs : List Word) {args : List Node} (h : Opens .access n us)
    (hargs : ∀ {tokens : Array Token} {j m : Nat}, vs.length < m → Stands tokens j vs →
      KindAt tokens (j + vs.length) .rparen →
      callArguments (expressionWithin m) tokens j = .ok args (j + vs.length : Nat)) :
    Opens .access (.call n args) (us ++ ⟨.lparen, "("⟩ :: (vs ++ [⟨.rparen, ")"⟩])) := by
  refine opens_access h rfl (fun v hv => by cases hv; decide) (Nat.succ_pos _) ?_
  intro tokens j m hm hs
  obtain ⟨hvs, hclose⟩ := stands_append.1 hs.2
  simp only [length_cons, length_append, length_nil] at hm ⊢
  rw [postfixStep, ifAccept_miss hs.kindAt (by decide), ifAccept_hit hs.kindAt (by decide),
    bind_ok (hargs (by omega) hvs hclose.kindAt)]
  refine expect_bind hclose.kindAt (by decide) fun _ _ => ?_
  rw [show j + (vs.length + (0 + 1) + 1) = j + 1 + vs.length + 1 by omega]
  rfl

theorem opens_call_none {g : List Word} (h : Opens .access n us) (hgap : ∀ w ∈ g, w.kind = .newline) :
    Opens .access (.call n []) (us ++ ⟨.lparen, "("⟩ :: (g ++ [⟨.rparen, ")"⟩])) :=
  opens_call_of_arguments g h fun _ hs hk => callArguments_none hgap hs hk

theorem opens_call {g : List Word} (h : Opens .access n us) (hgap : ∀ w ∈ g, w.kind = .newline)
    (hargs : Arguments ns ws) : Opens .access (.call n ns) (us ++ ⟨.lparen, "("⟩ :: (g ++ ws ++ [⟨.rparen, ")"⟩])) := by
  refine opens_call_of_arguments _ h fun hm hs hk => callArguments_ok hgap hargs ?_ hs hk
  rw [length_append] at hm
  omega

theorem opens_index (h : Opens .access n us) (hindex : Reads .disjunction index vs) :
    Opens .access (.subscript n index) (us ++ ⟨.lbracket, "["⟩ :: (vs ++ [⟨.rbracket, "]"⟩])) := by
  refine opens_access h rfl (fun v hv => by cases hv; decide) (Nat.succ_pos _) ?_
  intro tokens j m hm hs
  obtain ⟨hvs, hclose⟩ := stands_append.1 hs.2
  obtain ⟨kind, hmem, hfirst⟩ := hindex.starts.kindAt hvs
  simp only [length_cons, length_append, length_nil] at hm ⊢
  have hexpr := hindex.before (m := m) (by omega) hvs hclose.kindAt (by decide)
  have hinside : subscriptInside (expressionWithin m) tokens (j + 1 : Nat) =
      .ok index (j + 1 + vs.length : Nat) := by
    rw [subscriptInside, ifCheck_miss hfirst (startKinds_ne hmem).2.2.1]
    dsimp only
    rw [ifCheck_miss hfirst (startKinds_ne hmem).2.2.2.2, bind_ok (operand_ok hexpr hindex.present),
      ifCheck_miss hclose.kindAt (by decide), if_pos hindex.present]
    rfl
  rw [postfixStep, ifAccept_miss hs.kindAt (by decide), ifAccept_miss hs.kindAt (by decide),
    ifAccept_hit hs.kindAt (by decide), bind_ok hinside]
  refine expect_bind hclose.kindAt (by decide) fun _ _ => ?_
  rw [show j + (vs.length + (0 + 1) + 1) = j + 1 + vs.length + 1 by omega]
  rfl

/-! ### Names and literals -/

theorem endsCondition_false (tokens : Array Token) (i : Int) : endsCondition false tokens i = .ok false i := rfl

theorem reads_word (hw : w.kind ∈ Level.primary.startKinds) (hp : n.isPresent)
    (hrule : ∀ {tokens : Array Token} {i m : Nat} {t : Token}, tokens[i]? = some t → t.kind = w.kind →
      t.value = some w.text → primary (expressionWithin m) false tokens i = .ok n (i + 1 : Nat)) :
    Reads .primary n [w] := by
  refine ⟨hp, ⟨hw, fun v hv => by cases hv⟩, ?_⟩
  rintro tokens i m _ _ ⟨⟨t, ht, hk, hv⟩, _⟩ rfl
  exact hrule ht hk hv

theorem reads_name (s : String) : Reads .primary (.identifier s) [⟨.identifier, s⟩] := by
  refine reads_word (show TokenKind.identifier ∈ _ by decide) rfl ?_
  intro tokens i m t ht hk hv
  have hkind : KindAt tokens i .identifier := ⟨t, ht, hk⟩
  have htext : t.text = s := by rw [Token.text, hv, Option.getD_some]
  rw [primary, bind_ok (endsCondition_false tokens i), if_neg (by decide)]
  repeat rw [ifAccept_miss hkind (by decide)]
  rw [ifAccept_hit hkind (by decide), bind_ok (previous_ok ht), htext]
  rfl

theorem reads_literal (s : String) (h : (kind, literal) = (.number, .number) ∨ (kind, literal) = (.string, .string)) :
    Reads .primary (.literal (.text s) literal) [⟨kind, s⟩] := by
  have hfacts : kind ∈ Level.primary.startKinds ∧ kind ≠ .eof ∧ kind ∈ literalKinds.map Prod.fst ∧
      kind ∉ [.trueKw] ∧ kind ∉ [.falseKw] ∧ kind ∉ [.lbracket] ∧ kind ∉ [.lbrace] ∧ kind ∉ [.noneKw] ∧
      (literalKinds.lookup kind).getD .string = literal := by
    rcases h with h | h <;> cases h <;> decide
  obtain ⟨hstart, heof, hmem, h1, h2, h3, h4, h5, hliteral⟩ := hfacts
  refine reads_word hstart rfl ?_
  intro tokens i m t ht hk hv
  have hkind : KindAt tokens i kind := ⟨t, ht, hk⟩
  rw [primary, bind_ok (endsCondition_false tokens i), if_neg (by decide), ifAccept_miss hkind h1,
    ifAccept_miss hkind h2, ifAccept_miss hkind h3, ifAccept_miss hkind h4, ifAccept_miss hkind h5,
    ifAccept_hit hkind ⟨heof, hmem⟩, bind_ok (previous_ok ht), hv, hk, hliteral]
  rfl

theorem reads_truth (b : Bool) (hw : w.kind = if b then .trueKw else .falseKw) :
    Reads .primary (.literal (.truth b) .boolean) [w] := by
  cases b with
  | true =>
    refine reads_word (by rw [hw]; decide) rfl ?_
    intro tokens i m t ht hk _
    have hkind : KindAt tokens i .trueKw := ⟨t, ht, hk.trans hw⟩
    rw [primary, bind_ok (endsCondition_false tokens i), if_neg (by decide), ifAccept_hit hkind (by decide)]
    rfl
  | false =>
    refine reads_word (by rw [hw]; decide) rfl ?_
    intro tokens i m t ht hk _
    have hkind : KindAt tokens i .falseKw := ⟨t, ht, hk.trans hw⟩
    rw [primary, bind_ok (endsCondition_false tokens i), if_neg (by decide), ifAccept_miss hkind (by decide),
      ifAccept_hit hkind (by decide)]
    rfl

theorem reads_nothing (s : String) : Reads .primary (.literal .absent .none) [⟨.noneKw, s⟩] := by
  refine reads_word (show TokenKind.noneKw ∈ _ by decide) rfl ?_
  intro tokens i m t ht hk _
  have hkind : KindAt tokens i .noneKw := ⟨t, ht, hk⟩
  rw [primary, bind_ok (endsCondition_false tokens i), if_neg (by decide)]
  repeat rw [ifAccept_miss hkind (by decide)]
  rw [ifAccept_hit hkind (by decide)]
  rfl

/-! ### Brackets -/

theorem advance_pure (hk : KindAt tokens i kind) (hne : kind ≠ .eof) :
    (advance >>= fun _ => pure n) tokens i = .ok n (i + 1 : Nat) := by
  obtain ⟨t, ht, rfl⟩ := hk
  rw [bind_ok (advance_ok ht hne)]
  rfl

def Bracket.rest : Bracket → Parse Node → Parse Node
  | round => parenRest
  | square => listRest
  | curly => braceRest

theorem primary_opening (b : Bracket) (expr : Parse Node) (hk : KindAt tokens i b.opening.kind) :
    primary expr false tokens i = b.rest expr tokens (i + 1 : Nat) := by
  rw [primary, bind_ok (endsCondition_false tokens i), if_neg (by decide)]
  cases b with
  | square | round =>
    repeat rw [ifAccept_miss hk (by decide)]
    rw [ifAccept_hit hk (by decide)]
    rfl
  | curly =>
    repeat rw [ifAccept_miss hk (by decide)]
    rw [ifAccept_hit hk (by decide), if_neg (by decide)]
    rfl

theorem reads_bracketed (b : Bracket) (hp : n.isPresent)
    (hhead : ∀ v ∈ (ws ++ [b.closing]).head?, v.kind ∉ labelMarks)
    (hrest : ∀ {tokens : Array Token} {j m : Nat}, ws.length < m → Stands tokens j ws →
      KindAt tokens (j + ws.length) b.closing.kind →
      b.rest (expressionWithin m) tokens j = .ok n (j + ws.length + 1 : Nat)) :
    Reads .primary n (b.opening :: (ws ++ [b.closing])) := by
  refine ⟨hp, ⟨by cases b <;> decide, hhead⟩, ?_⟩
  rintro tokens i m _ hm hs rfl
  obtain ⟨hws, hclose⟩ := stands_append.1 hs.2
  simp only [length_cons, length_append, length_nil] at hm ⊢
  show primary (expressionWithin m) false tokens i = _
  rw [primary_opening b _ hs.kindAt, hrest (by omega) hws hclose.kindAt]
  congr 2
  omega

/-- The collection that the brackets make when nothing is between them. -/
def Bracket.collection : Bracket → LiteralKind
  | round => .tuple
  | square => .list
  | curly => .dict

theorem reads_empty (b : Bracket) : Reads .primary (.collection [] b.collection) [b.opening, b.closing] := by
  have hhead : ∀ v ∈ ([] ++ [b.closing]).head?, v.kind ∉ labelMarks := by
    intro v hv
    cases hv
    cases b <;> decide
  refine reads_bracketed b rfl hhead ?_
  intro tokens j m _ _ hk
  have hk : KindAt tokens j b.closing.kind := hk
  have hcheck : b.rest (expressionWithin m) tokens j =
      (advance >>= fun _ => pure (.collection [] b.collection)) tokens j := by
    cases b with
    | round => rw [Bracket.rest, parenRest, ifCheck_hit hk (by decide), Bracket.collection]
    | square => rw [Bracket.rest, listRest, ifCheck_hit hk (by decide), Bracket.collection]
    | curly => rw [Bracket.rest, braceRest, ifCheck_hit hk (by decide), Bracket.collection]
  rw [hcheck]
  exact advance_pure hk (by cases b <;> decide)

theorem Reads.head_append (h : Reads .disjunction n us) (vs : List Word) :
    ∀ v ∈ (us ++ vs).head?, v.kind ∉ labelMarks := by
  have hstarts := h.starts
  match us, hstarts with
  | u :: us, hstarts =>
    intro v hv
    cases hv
    exact startKinds_notMem_labelMarks hstarts.1

theorem reads_enclosed (h : Reads .disjunction n ws) : Reads .primary n (enclosed ws) := by
  refine reads_bracketed .round h.present (h.head_append _) ?_
  intro tokens j m hm hs hk
  obtain ⟨kind, hmem, hfirst⟩ := h.starts.kindAt hs
  rw [Bracket.rest, parenRest, ifCheck_miss hfirst (startKinds_ne hmem).2.1,
    bind_ok (operand_ok (h.before hm hs hk (by decide)) h.present), ifCheck_miss hk (by decide),
    ifAccept_miss hk (by decide)]
  exact expect_bind hk (by decide) fun _ _ => rfl

theorem reads_list (h : Reads .disjunction n us) (hns : Separated (Reads .disjunction) ns ws) :
    Reads .primary (.collection (n :: ns) .list) (⟨.lbracket, "["⟩ :: (us ++ ws ++ [⟨.rbracket, "]"⟩])) := by
  refine reads_bracketed .square rfl ?_ ?_
  · rw [List.append_assoc]
    exact h.head_append _
  intro tokens j m hm hs hk
  rw [length_append] at hm
  rw [length_append, ← Nat.add_assoc] at hk ⊢
  obtain ⟨hus, hws⟩ := stands_append.1 hs
  obtain ⟨kind, hmem, hfirst⟩ := h.starts.kindAt hus
  have hnext := hns.kindAt hws hk
  obtain ⟨kind', hk', hor⟩ := id hnext
  have hfor : kind' ∉ [.forKw] := by rcases hor with rfl | rfl <;> decide
  rw [Bracket.rest, listRest, ifCheck_miss hfirst (startKinds_ne hmem).2.2.1,
    bind_ok (operand_ok (h.item (by omega) hus hnext (by decide)) h.present), ifCheck_miss hk' hfor,
    bind_ok (iterate_itemStep hns (by omega) hws hk)]
  exact expect_bind hk (by decide) fun _ _ => rfl

theorem reads_tuple_singleton (h : Reads .disjunction n us) :
    Reads .primary (.collection [n] .tuple) (⟨.lparen, "("⟩ :: (us ++ [⟨.comma, ","⟩] ++ [⟨.rparen, ")"⟩])) := by
  refine reads_bracketed .round rfl ?_ ?_
  · rw [List.append_assoc]
    exact h.head_append _
  intro tokens j m hm hs hk
  rw [length_append] at hm
  rw [length_append, ← Nat.add_assoc] at hk ⊢
  obtain ⟨hus, hcomma⟩ := stands_append.1 hs
  obtain ⟨kind, hmem, hfirst⟩ := h.starts.kindAt hus
  have hk : KindAt tokens (j + us.length + 1) .rparen := hk
  rw [Bracket.rest, parenRest, ifCheck_miss hfirst (startKinds_ne hmem).2.1,
    bind_ok (operand_ok (h.before (by omega) hus hcomma.kindAt (by decide)) h.present),
    ifCheck_miss hcomma.kindAt (by decide), ifAccept_hit hcomma.kindAt (by decide), ifCheck_hit hk (by decide)]
  exact advance_pure hk (by decide)

theorem reads_tuple (h : Reads .disjunction n us) (h' : Reads .disjunction n' vs)
    (hns : Separated (Reads .disjunction) ns ws) :
    Reads .primary (.collection (n :: n' :: ns) .tuple)
      (⟨.lparen, "("⟩ :: (us ++ ⟨.comma, ","⟩ :: (vs ++ ws) ++ [⟨.rparen, ")"⟩])) := by
  refine reads_bracketed .round rfl ?_ ?_
  · rw [List.append_assoc]
    exact h.head_append _
  intro tokens j m hm hs hk
  obtain ⟨hus, hrest⟩ := stands_append.1 hs
  have hlen : j + (us ++ ⟨.comma, ","⟩ :: (vs ++ ws)).length = j + us.length + 1 + vs.length + ws.length := by
    simp only [length_append, length_cons]
    omega
  rw [hlen] at hk ⊢
  obtain ⟨kind, hmem, hfirst⟩ := h.starts.kindAt hus
  obtain ⟨kind', hmem', hsecond⟩ := h'.starts.kindAt (stands_append.1 hrest.2).1
  rw [Bracket.rest, parenRest, ifCheck_miss hfirst (startKinds_ne hmem).2.1,
    bind_ok (operand_ok (h.before (by omega) hus hrest.kindAt (by decide)) h.present),
    ifCheck_miss hrest.kindAt (by decide), ifAccept_hit hrest.kindAt (by decide),
    ifCheck_miss hsecond (startKinds_ne hmem').2.1, bind_ok (iterate_tupleItemStep hns h' (by omega) hrest.2 hk)]
  exact expect_bind hk (by decide) fun _ _ => rfl

theorem reads_set (h : Reads .disjunction n us) (hns : Separated (Reads .disjunction) ns ws) :
    Reads .primary (.collection (n :: ns) .set) (⟨.lbrace, "\x7b"⟩ :: (us ++ ws ++ [⟨.rbrace, "\x7d"⟩])) := by
  refine reads_bracketed .curly rfl ?_ ?_
  · rw [List.append_assoc]
    exact h.head_append _
  intro tokens j m hm hs hk
  rw [length_append] at hm
  rw [length_append, ← Nat.add_assoc] at hk ⊢
  obtain ⟨hus, hws⟩ := stands_append.1 hs
  obtain ⟨kind, hmem, hfirst⟩ := h.starts.kindAt hus
  have hnext := hns.kindAt hws hk
  obtain ⟨kind', hk', hor⟩ := id hnext
  have hno : kind' ∉ [.colon] ∧ kind' ∉ [.forKw] := by rcases hor with rfl | rfl <;> decide
  rw [Bracket.rest, braceRest, ifCheck_miss hfirst (startKinds_ne hmem).2.2.2.1,
    bind_ok (operand_ok (h.item (by omega) hus hnext (by decide)) h.present), ifAccept_miss hk' hno.1,
    ifCheck_miss hk' hno.2, bind_ok (iterate_setItemStep hns (by omega) hws hk)]
  exact expect_bind hk (by decide) fun _ _ => rfl

theorem reads_dict (h : IsEntry n vs) (hns : Separated IsEntry ns ws) :
    Reads .primary (.collection (n :: ns) .dict) (⟨.lbrace, "\x7b"⟩ :: (vs ++ ws ++ [⟨.rbrace, "\x7d"⟩])) := by
  obtain ⟨key, value, us, vs, rfl, rfl, hkey, hvalue⟩ := h
  refine reads_bracketed .curly rfl ?_ ?_
  · rw [List.append_assoc, List.append_assoc]
    exact hkey.head_append _
  intro tokens j m hm hs hk
  obtain ⟨huv, hws⟩ := stands_append.1 hs
  obtain ⟨hus, hvs⟩ := stands_append.1 huv
  have hmid : j + (us ++ ⟨.colon, ":"⟩ :: vs).length = j + us.length + 1 + vs.length := by
    rw [length_append, length_cons]
    omega
  rw [length_append, ← Nat.add_assoc, hmid] at hk ⊢
  rw [hmid] at hws
  simp only [length_append, length_cons] at hm
  obtain ⟨kind, hmem, hfirst⟩ := hkey.starts.kindAt hus
  have hnext := hns.kindAt hws hk
  obtain ⟨kind', hk', hor⟩ := id hnext
  have hfor : kind' ∉ [.forKw] := by rcases hor with rfl | rfl <;> decide
  rw [Bracket.rest, braceRest, ifCheck_miss hfirst (startKinds_ne hmem).2.2.2.1,
    bind_ok (operand_ok (hkey.before (by omega) hus hvs.kindAt (by decide)) hkey.present),
    ifAccept_hit hvs.kindAt (by decide), dictRest,
    bind_ok (operand_ok (hvalue.item (by omega) hvs.2 hnext (by decide)) hvalue.present), ifCheck_miss hk' hfor,
    bind_ok (iterate_entryStep hns (by omega) hws hk)]
  exact expect_bind hk (by decide) fun _ _ => rfl

end

end BraceLang
