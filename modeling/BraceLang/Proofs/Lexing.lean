import Mathlib.Data.List.Basic
import BraceLang.Proofs.KnownTokens
import BraceLang.Token.Scan

/-!
# Lexemes in a row

Which lexeme a text starts with, when it starts with a word, a number, a quoted text or a symbol.
-/

namespace BraceLang

open List LexemeForm TokenKind

variable {ds r v : List Char} {fit' : List Char → Prop}

/-! ### The table of lexemes -/

def found? (cs : List Char) (p : LexemeForm × TokenKind) : Option (TokenKind × List Char × List Char) :=
  (p.1.match? cs).map fun (v, r) => (if p.2 = .identifier then ofWord (String.ofList v) else p.2, v, r)

theorem firstLexeme?_eq (cs : List Char) : firstLexeme? cs = lexemes.findSome? (found? cs) := rfl

variable {cs : List Char} {c mark : Char} {kind : TokenKind} {s tag : String} {fit : List Char → Prop}
  {p q : LexemeForm × TokenKind} {form : LexemeForm} {fraction exponent : Bool} {rs : CodeRanges}

theorem found?_none (h : p.1.match? cs = none) : found? cs p = none := by
  rw [found?, h, Option.map_none]

theorem firstLexeme?_skip (before after : List (LexemeForm × TokenKind)) (hsplit : lexemes = before ++ after)
    (h : ∀ p ∈ before, p.1.match? cs = none) : firstLexeme? cs = after.findSome? (found? cs) := by
  rw [firstLexeme?_eq, hsplit, findSome?_append, findSome?_eq_none_iff.2, Option.none_or]
  exact fun p hp => found?_none (h p hp)

theorem firstLexeme?_entry (hR : lexemes.Pairwise R) (hq : q ∈ lexemes)
    (hskip : ∀ p, R p q → p.1.match? cs = none) (hmatch : q.1.match? cs = some (v, r)) :
    firstLexeme? cs = some (if q.2 = .identifier then ofWord (String.ofList v) else q.2, v, r) := by
  obtain ⟨before, after, hsplit⟩ := append_of_mem hq
  rw [hsplit, pairwise_append] at hR
  rw [firstLexeme?_skip before (q :: after) hsplit fun p hp => hskip p (hR.2.2 p hp q (mem_cons_self ..)),
    findSome?_cons, found?, hmatch]
  rfl

theorem isPrefixOf?_head_ne (h : d ≠ c) : (d :: ds).isPrefixOf? (c :: cs) = none := by
  cases hp : (d :: ds).isPrefixOf? (c :: cs) with
  | none => rfl
  | some =>
    have happ := isPrefixOf?_eq_some_iff_append_eq.1 hp
    exact absurd (List.cons.inj happ).1 h

theorem digits?_head (h : isDecimalDigit c = false) : digits? (c :: cs) = none := by
  unfold digits?
  rw [takeWhile_cons, h]
  rfl

theorem number_match?_head (h : isDecimalDigit c = false) :
    (number fraction exponent).match? (c :: cs) = none := by
  rw [match?, digits?_head h]
  rfl

theorem comment_match?_head (h : c ≠ '#') : comment.match? (c :: cs) = none := by
  rw [match?]
  intro tail heq
  exact h (List.cons.inj heq).1

/-! ### Words -/

def EndsWord (r : List Char) : Prop := ∀ d ∈ r.head?, isWordChar d = false ∧ d ≠ '"' ∧ d ≠ '\''

/-- Whether a form fits no word before something that may follow a word. -/
def sparesWords : LexemeForm → Bool
  | .comment | .number .. => true
  | .quotedText tag mark _ => tag.toList.all isWordChar && (mark == '"' || mark == '\'')
  | .spelling s => s.toList.head?.any (!isWordStart ·)
  | .word => false

theorem CodeRanges.exists_of_holds {n : Nat} (h : rs.holds n) : ∃ p ∈ rs, p.1 ≤ n ∧ n ≤ p.2 := by
  induction rs with
  | nil => cases h
  | cons p rs ih =>
    rw [CodeRanges.holds] at h
    split at h
    · cases h
    · rcases Bool.or_eq_true_iff.1 h with h | h
      · exact ⟨p, mem_cons_self .., by omega, of_decide_eq_true h⟩
      · obtain ⟨q, hq, hrange⟩ := ih h
        exact ⟨q, mem_cons_of_mem _ hq, hrange⟩

theorem toNat_of_isWordStart (h : isWordStart c) : 64 < c.toNat ∧ c.toNat < 123 := by
  have hcases : (c.isUpper = true ∨ c.isLower) ∨ c = '_' := by
    rcases Bool.or_eq_true_iff.1 h with h | h
    · exact .inl (Bool.or_eq_true_iff.1 h)
    · exact .inr (beq_iff_eq.1 h)
  rcases hcases with (h | h) | rfl
  · obtain ⟨h1, h2⟩ : c.val ≥ 'A'.val ∧ c.val ≤ 'Z'.val := of_decide_eq_true h
    have h1 : 65 ≤ c.toNat := UInt32.le_iff_toNat_le.1 h1
    have h2 : c.toNat ≤ 90 := UInt32.le_iff_toNat_le.1 h2
    omega
  · obtain ⟨h1, h2⟩ := Bool.and_eq_true_iff.1 h
    have h1 : c.val ≥ 'a'.val := of_decide_eq_true h1
    have h2 : c.val ≤ 'z'.val := of_decide_eq_true h2
    have h1 : 97 ≤ c.toNat := UInt32.le_iff_toNat_le.1 h1
    have h2 : c.toNat ≤ 122 := UInt32.le_iff_toNat_le.1 h2
    omega
  · decide

theorem holds_of_isWordStart (hrs : ∀ p ∈ rs, p.2 ≤ 64 ∨ 123 ≤ p.1) (h : isWordStart c) :
    rs.holds c.toNat = false := by
  by_contra hholds
  obtain ⟨p, hp, hlo, hhi⟩ := CodeRanges.exists_of_holds (Bool.of_not_eq_false hholds)
  have hrange := toNat_of_isWordStart h
  rcases hrs p hp with h | h <;> omega

theorem isDecimalDigit_of_isWordStart (h : isWordStart c) : isDecimalDigit c = false :=
  holds_of_isWordStart (by decide) h

theorem isBlank_of_isWordStart (h : isWordStart c) : isBlank c = false :=
  holds_of_isWordStart (by decide) h

theorem isWordChar_of_isWordStart (h : isWordStart c) : isWordChar c := by
  unfold isWordChar Char.isAlphanum
  rcases Bool.or_eq_true_iff.1 h with h | h <;> simp [h]

theorem isBlank_of_isWordChar (h : isWordChar c) : isBlank c = false := by
  unfold isWordChar Char.isAlphanum at h
  by_cases hdigit : c.isDigit
  · simp only [Char.isDigit, Bool.and_eq_true, decide_eq_true_eq] at hdigit
    have h1 : 48 ≤ c.toNat := UInt32.le_iff_toNat_le.1 hdigit.1
    have h2 : c.toNat ≤ 57 := UInt32.le_iff_toNat_le.1 hdigit.2
    by_contra hblank
    obtain ⟨p, hp, hlo, hhi⟩ := CodeRanges.exists_of_holds (Bool.of_not_eq_false hblank)
    have hranges : ∀ p ∈ blankRanges, p.2 ≤ 47 ∨ 58 ≤ p.1 := by decide
    rcases hranges p hp with h | h <;> omega
  · refine isBlank_of_isWordStart ?_
    rw [Bool.of_not_eq_true hdigit, Bool.or_false] at h
    exact h

theorem IsWord.isWordChar (h : IsWord cs) : ∀ c ∈ cs, isWordChar c := by
  cases cs with
  | nil => exact h.elim
  | cons => exact forall_mem_cons.2 ⟨isWordChar_of_isWordStart h.1, h.2⟩

theorem IsWord.notMem (h : IsWord cs) (hc : BraceLang.isWordChar c = false) : c ∉ cs :=
  fun hmem => Bool.false_ne_true (hc.symm.trans (h.isWordChar c hmem))

theorem IsWord.trim_eq (h : IsWord s.toList) : trim s = s := by
  have hblank : ∀ c ∈ s.toList, isBlank c = false := fun c hc => isBlank_of_isWordChar (h.isWordChar c hc)
  have hdrop : ∀ cs : List Char, (∀ c ∈ cs, isBlank c = false) → cs.dropWhile isBlank = cs := by
    intro cs hcs
    cases cs with
    | nil => rfl
    | cons c => simp [hcs c (mem_cons_self ..)]
  have hreverse : ∀ c ∈ s.toList.reverse, isBlank c = false := fun c hc => hblank c (mem_reverse.1 hc)
  rw [trim, dropStart, hdrop _ hblank, dropEnd, hdrop _ hreverse, reverse_reverse, String.ofList_toList]

theorem takeWhile_run {p : Char → Bool} (hcs : ∀ c ∈ cs, p c)
    (hr : ∀ c ∈ r.head?, p c = false) : (cs ++ r).takeWhile p = cs ∧ (cs ++ r).dropWhile p = r := by
  rw [takeWhile_append_of_pos hcs, dropWhile_append_of_pos hcs]
  cases r with
  | nil => simp
  | cons d => simp [hr d rfl]

theorem EndsWord.takeWhile (hcs : ∀ d ∈ cs, isWordChar d) (hr : EndsWord r) :
    (cs ++ r).takeWhile isWordChar = cs ∧ (cs ++ r).dropWhile isWordChar = r :=
  takeWhile_run hcs fun d hd => (hr d hd).1

theorem match?_of_sparesWords (hform : sparesWords form) (hw : IsWord (c :: cs))
    (hr : EndsWord r) : form.match? (c :: (cs ++ r)) = none := by
  cases form with
  | word => cases hform
  | comment =>
    refine comment_match?_head ?_
    rintro rfl
    exact absurd hw.1 (by decide)
  | number => exact number_match?_head (isDecimalDigit_of_isWordStart hw.1)
  | spelling s =>
    simp only [sparesWords] at hform
    cases hs : s.toList with
    | nil => rw [hs] at hform; cases hform
    | cons d =>
      have hne : d ≠ c := by
        rintro rfl
        rw [hs] at hform
        simp [hw.1] at hform
      rw [match?, hs, isPrefixOf?_head_ne hne]
      rfl
  | quotedText tag mark triple =>
    simp only [sparesWords, Bool.and_eq_true, all_eq_true, Bool.or_eq_true, beq_iff_eq] at hform
    obtain ⟨htag, hmark⟩ := hform
    -- a tag and a quote in front of a text are all of the word that the text starts with
    have hno : (tag.toList ++ marks mark triple).isPrefixOf? (c :: (cs ++ r)) = none := by
      cases hp : (tag.toList ++ marks mark triple).isPrefixOf? (c :: (cs ++ r)) with
      | none => rfl
      | some =>
        have happ := isPrefixOf?_eq_some_iff_append_eq.1 hp
        obtain ⟨ms, hms⟩ : ∃ ms, marks mark triple = mark :: ms := by
          cases triple
          · exact ⟨[], rfl⟩
          · exact ⟨[mark, mark], rfl⟩
        have hquote : isWordChar mark = false := by rcases hmark with rfl | rfl <;> decide
        have hword : ∀ d ∈ c :: cs, isWordChar d := by
          intro d hd
          rcases mem_cons.1 hd with rfl | hd
          · exact isWordChar_of_isWordStart hw.1
          · exact hw.2 d hd
        have hrest := (EndsWord.takeWhile hword hr).2
        rw [cons_append, ← happ, hms, List.append_assoc, dropWhile_append_of_pos htag, cons_append,
          dropWhile_cons, if_neg (by simp [hquote])] at hrest
        have hbad := hr mark (by rw [← hrest]; rfl)
        rcases hmark with rfl | rfl
        · exact absurd rfl hbad.2.1
        · exact absurd rfl hbad.2.2
    rw [match?, hno]
    rfl

theorem firstLexeme?_word (hw : IsWord (c :: cs)) (hr : EndsWord r) :
    firstLexeme? (c :: (cs ++ r)) = some (ofWord (String.ofList (c :: cs)), c :: cs, r) := by
  have hspares : ∀ p ∈ lexemes.dropLast, sparesWords p.1 := by decide
  rw [firstLexeme?_skip lexemes.dropLast [(.word, .identifier)] rfl
    fun p hp => match?_of_sparesWords (hspares p hp) hw hr]
  obtain ⟨htake, hdrop⟩ := EndsWord.takeWhile hw.2 hr
  simp [found?, match?, hw.1, htake, hdrop]

/-! ### Numbers -/

structure EndsNumber (r : List Char) : Prop where
  digits : digits? r = none
  fraction : fraction? r = none
  exponent : ∀ d ∈ r.head?, d ≠ 'e' ∧ d ≠ 'E' ∧ d ≠ '+' ∧ d ≠ '-'

theorem EndsNumber.head (hr : EndsNumber r) : ∀ c ∈ r.head?, isDecimalDigit c = false := by
  intro c hc
  obtain ⟨r', rfl⟩ := head?_eq_some_iff.1 hc
  have hdigits := hr.digits
  unfold digits? at hdigits
  by_contra hdigit
  simp [Bool.of_not_eq_false hdigit] at hdigits

theorem IsDigits.exists_cons (h : IsDigits d) : ∃ c cs, d = c :: cs ∧ isDecimalDigit c := by
  obtain ⟨c, cs, rfl⟩ := exists_cons_of_ne_nil h.1
  exact ⟨c, cs, rfl, h.2 c (mem_cons_self ..)⟩

section

variable {d f e x r : List Char}

theorem digits?_append (hd : IsDigits d) (hx : ∀ c ∈ x.head?, isDecimalDigit c = false) :
    digits? (d ++ x) = some (d, x) := by
  obtain ⟨htake, hdrop⟩ := takeWhile_run hd.2 hx
  rw [digits?, htake, hdrop, if_neg (by simp [hd.1])]

theorem fraction?_append (hf : IsFraction f) (hx : ∀ c ∈ x.head?, isDecimalDigit c = false) :
    fraction? (f ++ x) = some (f, x) := by
  obtain ⟨d, hd, rfl⟩ := hf
  rw [cons_append, fraction?, digits?_append hd hx]
  rfl

theorem exponent?_append (he : IsExponent e) (hx : ∀ c ∈ x.head?, isDecimalDigit c = false) :
    exponent? (e ++ x) = some (e, x) := by
  obtain ⟨c, s, d, hc, hs, hd, rfl⟩ := he
  have hsign : sign (s ++ (d ++ x)) = (s, d ++ x) := by
    obtain ⟨a, ds, rfl, hdigit⟩ := hd.exists_cons
    rcases hs with rfl | rfl | rfl
    · rw [nil_append, cons_append, sign]
      · rintro cs heq
        cases heq
        exact absurd hdigit (by decide)
      · rintro cs heq
        cases heq
        exact absurd hdigit (by decide)
    · rfl
    · rfl
  rw [cons_append, List.append_assoc, exponent?, if_pos hc, hsign, digits?_append hd hx]
  rfl

theorem fraction?_of_exponent (he : IsExponent e) : fraction? (e ++ x) = none := by
  obtain ⟨c, s, d, hc, -, -, rfl⟩ := he
  rcases hc with rfl | rfl <;> rfl

theorem exponent?_of_fraction (hf : IsFraction f) : exponent? (f ++ x) = none := by
  obtain ⟨d, -, rfl⟩ := hf
  rfl

theorem EndsNumber.exponent? (hr : EndsNumber r) : exponent? r = none := by
  cases r with
  | nil => rfl
  | cons c => rw [BraceLang.exponent?, if_neg (by simp [(hr.exponent c rfl).1, (hr.exponent c rfl).2.1])]

end

theorem firstLexeme?_number (hcs : IsNumber fraction exponent cs) (hr : EndsNumber r) :
    firstLexeme? (cs ++ r) = some (.number, cs, r) := by
  obtain ⟨w, f, e, hw, hf, he, rfl⟩ := hcs
  obtain ⟨c, w', hcons, hdigit⟩ := hw.exists_cons
  obtain ⟨hexp, hhead⟩ : exponent? (e ++ r) = (if exponent then some (e, r) else none) ∧
      ∀ x ∈ (e ++ r).head?, isDecimalDigit x = false := by
    cases exponent with
    | false => obtain rfl := he; exact ⟨hr.exponent?, hr.head⟩
    | true =>
      refine ⟨exponent?_append he hr.head, ?_⟩
      obtain ⟨_, s, d, rfl | rfl, -, -, rfl⟩ := he <;> simp <;> decide
  obtain ⟨hfrac, hlate, hhead'⟩ : fraction? (f ++ (e ++ r)) = (if fraction then some (f, e ++ r) else none) ∧
      exponent? (f ++ (e ++ r)) = (if fraction then none else exponent? (e ++ r)) ∧
      ∀ x ∈ (f ++ (e ++ r)).head?, isDecimalDigit x = false := by
    cases fraction with
    | false =>
      obtain rfl := hf
      refine ⟨?_, rfl, hhead⟩
      cases exponent with
      | false => obtain rfl := he; exact hr.fraction
      | true => exact fraction?_of_exponent (e := e) he
    | true =>
      refine ⟨fraction?_append hf hhead, exponent?_of_fraction hf, ?_⟩
      obtain ⟨d, -, rfl⟩ := hf
      simp
      decide
  have hmatch (f' e' : Bool) : (number f' e').match? (w ++ (f ++ (e ++ r))) =
      (part? f' fraction? (f ++ (e ++ r))).bind fun (a, y) =>
        (part? e' exponent? y).bind fun (b, z) => some (w ++ a ++ b, z) := by
    rw [match?, digits?_append hw hhead']
    rfl
  rw [List.append_assoc, List.append_assoc, firstLexeme?_skip [(.comment, .comment)] lexemes.tail rfl]
  · -- an entry that asks for a part which is not there does not fit
    simp only [lexemes, cons_append, tail_cons, findSome?_cons, found?, hmatch, part?, hfrac]
    cases fraction <;> cases exponent <;> simp_all
  · intro p hp
    rw [mem_singleton.1 hp, hcons]
    exact comment_match?_head (by rintro rfl; exact absurd hdigit (by decide))

theorem word_of_identifier (hp : p ∈ lexemes) (h : p.2 = .identifier) : p.1 = .word :=
  (by decide : ∀ p ∈ lexemes, p.2 = .identifier → p.1 = .word) p hp h

theorem ofWord_mem (w : String) : ofWord w ∈ .identifier :: reserved.map Prod.snd := by
  unfold ofWord
  cases h : reserved.lookup w with
  | none => exact mem_cons_self ..
  | some k =>
    obtain ⟨l₁, l₂, hsplit, _⟩ := lookup_eq_some_iff.1 h
    exact mem_cons_of_mem _ (mem_map.2 ⟨(w, k), by rw [hsplit]; simp, rfl⟩)

theorem exists_match?_of_firstLexeme? (h : firstLexeme? cs = some (kind, v, r))
    (hkind : kind ∉ .identifier :: reserved.map Prod.snd) :
    ∃ form, (form, kind) ∈ lexemes ∧ form.match? cs = some (v, r) := by
  obtain ⟨⟨form, k⟩, hmem, hfound⟩ := exists_of_findSome?_eq_some h
  obtain ⟨⟨v', r'⟩, hmatch, heq⟩ := Option.map_eq_some_iff.1 hfound
  dsimp only at heq
  split at heq
  · cases heq
    exact absurd (ofWord_mem _) hkind
  · cases heq
    exact ⟨form, hmem, hmatch⟩

theorem isWord_of_firstLexeme? (h : firstLexeme? cs = some (kind, v, r))
    (hkind : kind ∈ .identifier :: reserved.map Prod.snd) : IsWord v ∧ ofWord (String.ofList v) = kind := by
  obtain ⟨form, k, text, hmem, hk, htext, -⟩ := firstLexeme?_denotes h
  have hk' : k = .identifier := by
    by_contra hne
    rw [if_neg hne] at hk
    exact hne ((by decide : ∀ p ∈ lexemes, p.2 ∈ .identifier :: reserved.map Prod.snd → p.2 = .identifier) _
      hmem (hk ▸ hkind))
  rw [if_pos hk'] at hk
  obtain rfl : form = .word := word_of_identifier hmem hk'
  exact ⟨htext.2, hk⟩

def IsNumeral (cs : List Char) : Prop := firstLexeme? cs = some (.number, cs, [])

theorem isNumber_of_firstLexeme? (h : firstLexeme? cs = some (.number, v, r)) :
    ∃ fraction exponent, IsNumber fraction exponent v := by
  obtain ⟨form, hmem, hmatch⟩ := exists_match?_of_firstLexeme? h (by decide)
  obtain ⟨text, htext, -⟩ := match?_denotes hmatch
  obtain ⟨fraction, exponent, rfl⟩ : ∃ fraction exponent, form = .number fraction exponent :=
    (by decide : ∀ p ∈ lexemes, p.2 = .number → ∃ fraction exponent, p.1 = .number fraction exponent) _ hmem rfl
  exact ⟨fraction, exponent, htext.2⟩

theorem IsNumber.exists_cons (h : IsNumber fraction exponent cs) :
    ∃ c cs', cs = c :: cs' ∧ isDecimalDigit c := by
  obtain ⟨w, f, e, hw, -, -, rfl⟩ := h
  obtain ⟨c, w', rfl, hdigit⟩ := hw.exists_cons
  exact ⟨c, _, rfl, hdigit⟩

theorem IsNumeral.isDecimalDigit_head (h : IsNumeral cs) : ∀ c ∈ cs.head?, isDecimalDigit c := by
  obtain ⟨_, _, hnumber⟩ := isNumber_of_firstLexeme? h
  obtain ⟨c, cs', rfl, hdigit⟩ := hnumber.exists_cons
  intro d hd
  cases hd
  exact hdigit

theorem IsNumber.newline_notMem (h : IsNumber fraction exponent cs) : '\n' ∉ cs := by
  have hdigits {d : List Char} (hd : IsDigits d) : '\n' ∉ d := fun hmem => absurd (hd.2 _ hmem) (by decide)
  obtain ⟨w, f, e, hw, hf, he, rfl⟩ := h
  have hf : '\n' ∉ f := by
    cases fraction with
    | false => obtain rfl := hf; simp
    | true => obtain ⟨d, hd, rfl⟩ := hf; simp [hdigits hd]
  have he : '\n' ∉ e := by
    cases exponent with
    | false => obtain rfl := he; simp
    | true => obtain ⟨_, s, d, rfl | rfl, rfl | rfl | rfl, hd, rfl⟩ := he <;> simp [hdigits hd]
  simp [hdigits hw, hf, he]

theorem IsNumeral.newline_notMem (h : IsNumeral cs) : '\n' ∉ cs := by
  obtain ⟨_, _, hnumber⟩ := isNumber_of_firstLexeme? h
  exact hnumber.newline_notMem

/-! ### Quoted texts -/

theorem cutAt_mark (h : mark ∉ cs) : cutAt [mark] (cs ++ mark :: r) = some (cs, r) := by
  induction cs with
  | nil =>
    have hclose : [mark].isPrefixOf? (mark :: r) = some r := isPrefixOf?_eq_some_iff_append_eq.2 rfl
    rw [nil_append, cutAt, hclose]
  | cons c cs ih =>
    have hne : mark ≠ c := fun he => h (by rw [he]; exact mem_cons_self ..)
    rw [cons_append, cutAt, isPrefixOf?_head_ne hne]
    rw [ih fun hm => h (mem_cons_of_mem _ hm)]
    rfl

theorem triple_match? (h : mark ∉ cs) (hr : ∀ d ∈ r.head?, d ≠ mark) :
    (quotedText tag mark true).match? (tag.toList ++ mark :: (cs ++ mark :: r)) = none := by
  cases hp : (tag.toList ++ marks mark true).isPrefixOf? (tag.toList ++ mark :: (cs ++ mark :: r)) with
  | none => rw [match?, hp]; rfl
  | some =>
    have happ := isPrefixOf?_eq_some_iff_append_eq.1 hp
    rw [List.append_assoc, append_cancel_left_eq] at happ
    obtain ⟨_, happ⟩ := List.cons.inj happ
    cases cs with
    | nil =>
      obtain ⟨_, hr'⟩ := List.cons.inj happ
      exact absurd rfl (hr mark (by rw [← hr']; rfl))
    | cons =>
      obtain ⟨rfl, _⟩ := List.cons.inj happ
      exact absurd (mem_cons_self ..) h

def LexemeForm.opening : LexemeForm → List Char
  | .quotedText tag mark triple => tag.toList ++ marks mark triple
  | .spelling s => s.toList
  | _ => []

/-- Whether a form fits no text with the given start: the start has another first character, or it and the opening of
the form do not agree. -/
def avoids (start : List Char) : LexemeForm → Bool
  | .comment => start.head?.any (· != '#')
  | .number .. => start.head?.any (!isDecimalDigit ·)
  | .word => start.head?.any (!isWordStart ·)
  | form => !form.opening.isPrefixOf start && !start.isPrefixOf form.opening

theorem match?_of_opening (h : form.opening.isPrefixOf? cs = none) : form.match? cs = none := by
  cases form with
  | quotedText => rw [match?, ← opening, h]; rfl
  | spelling => rw [match?, ← opening, h]; simp
  | _ => cases h

theorem match?_of_avoids (h : avoids start form) (cs : List Char) :
    form.match? (start ++ cs) = none := by
  have hclash (h : (!form.opening.isPrefixOf start && !start.isPrefixOf form.opening)) :
      form.match? (start ++ cs) = none := by
    refine match?_of_opening (Option.eq_none_iff_forall_ne_some.2 fun t ht => ?_)
    have happ := isPrefixOf?_eq_some_iff_append_eq.1 ht
    simp only [Bool.and_eq_true, Bool.not_eq_true', ← Bool.not_eq_true, isPrefixOf_iff_prefix] at h
    rcases prefix_or_prefix_of_prefix ⟨t, happ⟩ (prefix_append start cs) with hpre | hpre
    · exact h.1 hpre
    · exact h.2 hpre
  cases form with
  | quotedText | spelling => exact hclash h
  | comment | number | word =>
    cases start with
    | nil => cases h
    | cons c =>
      first
        | exact comment_match?_head (by simpa [avoids] using h)
        | exact number_match?_head (by simpa [avoids] using h)
        | simp [match?, (by simpa [avoids] using h : isWordStart c = false)]

/-- Whether a form fits no lexeme of the later form: a text between single quotes, or a symbol in front of a space or at
the end. -/
def yields : LexemeForm → LexemeForm → Bool
  | .quotedText tag mark false, form => form = .quotedText tag mark true || avoids (tag.toList ++ [mark]) form
  | .spelling s, form => avoids (s.toList ++ [' ']) form && (form.match? s.toList).isNone
  | _, _ => true

theorem lexemes_yield : lexemes.Pairwise fun p q => yields q.1 p.1 = true := by decide

theorem opening_ne_nil (hform : (.spelling s, kind) ∈ lexemes) : s.toList ≠ [] := fun h =>
  (by decide : ∀ p ∈ lexemes, p.1 ≠ .spelling "") _ hform (by rw [String.toList_eq_nil_iff.1 h])

theorem firstLexeme?_quoted (hform : (.quotedText tag mark false, kind) ∈ lexemes) (hcs : mark ∉ cs)
    (hr : ∀ d ∈ r.head?, d ≠ mark) : firstLexeme? (tag.toList ++ mark :: (cs ++ mark :: r)) = some (kind, cs, r) := by
  have hkind : kind ≠ .identifier := fun he => absurd (word_of_identifier hform he) (by simp)
  have hself : (quotedText tag mark false).match? (tag.toList ++ mark :: (cs ++ mark :: r)) =
      some (cs, r) := by
    have hyes : (tag.toList ++ marks mark false).isPrefixOf? (tag.toList ++ mark :: (cs ++ mark :: r)) =
        some (cs ++ mark :: r) := isPrefixOf?_eq_some_iff_append_eq.2 (by simp [marks])
    rw [match?, hyes]
    exact cutAt_mark hcs
  rw [firstLexeme?_entry lexemes_yield hform (fun p hp => ?_) hself, if_neg hkind]
  rcases Bool.or_eq_true_iff.1 hp with hp | hp
  · rw [of_decide_eq_true hp]
    exact triple_match? hcs hr
  · have havoids := match?_of_avoids hp (cs ++ mark :: r)
    rwa [List.append_assoc] at havoids

theorem firstLexeme?_symbol (hform : (.spelling s, kind) ∈ lexemes) (hr : ∀ c ∈ r.head?, c = ' ') :
    firstLexeme? (s.toList ++ r) = some (kind, s.toList, r) := by
  have hkind : kind ≠ .identifier := fun he => absurd (word_of_identifier hform he) (by simp)
  have hself : (spelling s).match? (s.toList ++ r) = some (s.toList, r) := by
    rw [match?, if_neg (by simpa using opening_ne_nil hform), isPrefixOf?_eq_some_iff_append_eq.2 rfl]
    rfl
  rw [firstLexeme?_entry lexemes_yield hform (fun p hp => ?_) hself, if_neg hkind]
  obtain ⟨havoids, hend⟩ := Bool.and_eq_true_iff.1 hp
  cases r with
  | nil => rw [append_nil]; exact Option.isNone_iff_eq_none.1 hend
  | cons c r =>
    obtain rfl := hr c rfl
    have hnone := match?_of_avoids havoids r
    rwa [List.append_assoc] at hnone

/-! ### Assignment marks -/

theorem firstLexeme?_assign (hr : ∀ d ∈ r.head?, d ≠ '=') : firstLexeme? ('=' :: r) = some (.assign, ['='], r) := by
  cases r with
  | nil => rfl
  | cons c r =>
    have hdouble : (spelling "==").match? ('=' :: c :: r) = none := by
      have hstep : "==".toList.isPrefixOf? ('=' :: c :: r) = ['='].isPrefixOf? (c :: r) := rfl
      rw [match?, hstep, isPrefixOf?_head_ne (hr c rfl).symm]
      rfl
    have hsplit : lexemes = lexemes.take 27 ++ (.spelling "==", .equal) :: lexemes.drop 28 := rfl
    rw [firstLexeme?_eq, hsplit, findSome?_append, findSome?_cons, found?_none hdouble]
    rfl

/-! ### Lines -/

def Lexeme.word (x : Lexeme) : Word := ⟨x.kind, x.value⟩

/-- In front of any rest that is fit to follow, the text is read as the words, and reading goes on with the rest. -/
def Scans (fit : List Char → Prop) (cs : List Char) (ws : List Word) : Prop :=
  ∀ column rest, fit rest → ∃ column',
    (scanLine column (cs ++ rest)).lexemes.map Lexeme.word = ws ++ (scanLine column' rest).lexemes.map Lexeme.word ∧
      (scanLine column (cs ++ rest)).stuck = (scanLine column' rest).stuck

theorem Scans.append (h : Scans fit cs us)
    (h' : Scans fit' ds vs) (hfit : ∀ rest, fit' rest → fit (ds ++ rest)) : Scans fit' (cs ++ ds) (us ++ vs) := by
  intro column rest hrest
  obtain ⟨middle, hwords, hstuck⟩ := h column (ds ++ rest) (hfit rest hrest)
  obtain ⟨column', hwords', hstuck'⟩ := h' middle rest hrest
  refine ⟨column', ?_, ?_⟩
  · rw [List.append_assoc, hwords, hwords', List.append_assoc]
  · rw [List.append_assoc, hstuck, hstuck']

theorem Scans.mono (h : Scans fit cs ws) (hfit : ∀ rest, fit' rest → fit rest) : Scans fit' cs ws :=
  fun column rest hrest => h column rest (hfit rest hrest)

theorem scans_blank (hc : isBlank c) : Scans fit [c] [] := by
  intro column rest _
  refine ⟨column + 1, ?_⟩
  rw [singleton_append, scanLine, if_pos hc]
  exact ⟨rfl, rfl⟩

theorem scans_lexeme (hc : isBlank c = false)
    (h : ∀ rest, fit rest → firstLexeme? (c :: (cs ++ rest)) = some (kind, v, rest)) :
    Scans fit (c :: cs) [⟨kind, String.ofList v⟩] := by
  intro column rest hrest
  have hfirst := h rest hrest
  refine ⟨column + ((c :: (cs ++ rest)).length - rest.length), ?_⟩
  rw [cons_append, scanLine, if_neg (by simp [hc])]
  split
  · next heq => rw [hfirst] at heq; cases heq
  · next heq =>
    rw [hfirst] at heq
    cases heq
    exact ⟨rfl, rfl⟩

theorem isBlank_of_isDecimalDigit (h : isDecimalDigit c) : isBlank c = false := by
  by_contra hblank
  obtain ⟨p, hp, hlo, hhi⟩ := CodeRanges.exists_of_holds h
  obtain ⟨q, hq, hlo', hhi'⟩ := CodeRanges.exists_of_holds (Bool.of_not_eq_false hblank)
  have hapart : ∀ p ∈ digitRanges, ∀ q ∈ blankRanges, p.2 < q.1 ∨ q.2 < p.1 := by decide
  rcases hapart p hp q hq with h | h <;> omega

theorem scans_text (hcs : ∃ c ∈ cs.head?, isBlank c = false)
    (h : ∀ rest, fit rest → firstLexeme? (cs ++ rest) = some (kind, s.toList, rest)) : Scans fit cs [⟨kind, s⟩] := by
  obtain ⟨c, hc, hblank⟩ := hcs
  obtain ⟨cs', rfl⟩ := head?_eq_some_iff.1 hc
  have hscans := scans_lexeme hblank h
  rwa [String.ofList_toList] at hscans

theorem scans_word (hs : IsWord s.toList) : Scans EndsWord s.toList [⟨ofWord s, s⟩] := by
  obtain ⟨c, cs, h⟩ : ∃ c cs, s.toList = c :: cs := by
    cases h : s.toList with
    | nil => rw [h] at hs; exact absurd hs id
    | cons c cs => exact ⟨c, cs, rfl⟩
  refine scans_text ⟨c, by rw [h]; rfl, isBlank_of_isWordStart (h ▸ hs).1⟩ fun rest hrest => ?_
  have hword := firstLexeme?_word (h ▸ hs) hrest
  rwa [← cons_append, ← h, String.ofList_toList] at hword

theorem scans_number (hs : IsNumber fraction exponent s.toList) : Scans EndsNumber s.toList [⟨.number, s⟩] := by
  obtain ⟨c, cs, h, hdigit⟩ := hs.exists_cons
  exact scans_text ⟨c, by rw [h]; rfl, isBlank_of_isDecimalDigit hdigit⟩ fun rest hrest => firstLexeme?_number hs hrest

theorem scans_numeral (hs : IsNumeral s.toList) : Scans EndsNumber s.toList [⟨.number, s⟩] := by
  obtain ⟨_, _, hnumber⟩ := isNumber_of_firstLexeme? hs
  exact scans_number hnumber

def EndsQuoted (r : List Char) : Prop := ∀ d ∈ r.head?, d ≠ '"' ∧ d ≠ '\''

theorem isBlank_opening (hp : p ∈ lexemes) (hne : p.1.opening ≠ []) (cs : List Char) :
    ∃ c ∈ (p.1.opening ++ cs).head?, isBlank c = false := by
  have htable : ∀ p ∈ lexemes, p.1.opening.head?.any isBlank = false := by decide
  obtain ⟨c, rest, h⟩ := exists_cons_of_ne_nil hne
  exact ⟨c, by simp [h], by simpa [h] using htable p hp⟩

theorem scans_quoted (hform : (.quotedText tag mark false, kind) ∈ lexemes) (hs : mark ∉ s.toList) :
    Scans (fun r => ∀ d ∈ r.head?, d ≠ mark) (tag.toList ++ mark :: (s.toList ++ [mark])) [⟨kind, s⟩] := by
  refine scans_text ?_ fun rest hrest => ?_
  · have hhead := isBlank_opening hform (by simp [opening, marks]) (s.toList ++ [mark])
    rwa [opening, marks, List.append_assoc] at hhead
  · have hquoted := firstLexeme?_quoted hform hs hrest
    simpa using hquoted

theorem scans_spelling (hform : (.spelling s, kind) ∈ lexemes) :
    Scans (fun r => ∀ c ∈ r.head?, c = ' ') s.toList [⟨kind, s⟩] := by
  refine scans_text ?_ fun rest hrest => firstLexeme?_symbol hform hrest
  have hhead := isBlank_opening hform (opening_ne_nil hform) []
  rwa [append_nil] at hhead

theorem scans_symbol (hc : isBlank c = false) (h : ∀ r, firstLexeme? (c :: r) = some (kind, [c], r)) :
    Scans fit [c] [⟨kind, String.ofList [c]⟩] :=
  scans_lexeme hc fun rest _ => h rest

/-! ### What follows an expression -/

def followMarks : List Char := [')', ']', '\x7d', '(', '[', ',', ':', ' ']

/-- The rest of a line behind an expression: a mark, or a point and the name of a member. -/
def Follows : List Char → Prop
  | [] => True
  | c :: r => c ∈ followMarks ∨ c = '.' ∧ ∃ d ∈ r.head?, isWordStart d = true

theorem Follows.endsWord (h : Follows r) : EndsWord r := by
  intro d hd
  match r, h with
  | c :: r, h =>
    cases hd
    rcases h with h | ⟨rfl, _⟩
    · have hmarks : followMarks.all (fun c => !isWordChar c && c != '"' && c != '\'') = true := by decide
      have hd := all_eq_true.1 hmarks d h
      simp only [Bool.and_eq_true, bne_iff_ne, Bool.not_eq_true'] at hd
      exact ⟨hd.1.1, hd.1.2, hd.2⟩
    · decide

theorem Follows.endsQuoted (h : Follows r) : EndsQuoted r := fun d hd => (h.endsWord d hd).2

theorem Follows.endsNumber (h : Follows r) : EndsNumber r := by
  match r, h with
  | [], _ => exact ⟨rfl, rfl, fun d hd => by cases hd⟩
  | c :: r, .inl h =>
    have hmarks : followMarks.all (fun c =>
        !isDecimalDigit c && (c != '.' && (c != 'e' && (c != 'E' && (c != '+' && c != '-'))))) := by decide
    have hc := all_eq_true.1 hmarks c h
    simp only [Bool.and_eq_true, Bool.not_eq_true', bne_iff_ne] at hc
    obtain ⟨hdigit, hpoint, hexponent⟩ := hc
    refine ⟨digits?_head hdigit, ?_, fun d hd => by cases hd; exact hexponent⟩
    rw [fraction?]
    intro _ heq
    exact hpoint (List.cons.inj heq).1
  | _ :: r, .inr ⟨rfl, d, hd, hstart⟩ =>
    refine ⟨digits?_head (by decide), ?_, fun d hd => by cases hd; decide⟩
    obtain ⟨r, rfl⟩ : ∃ r', r = d :: r' := head?_eq_some_iff.1 hd
    rw [fraction?, digits?_head (isDecimalDigit_of_isWordStart hstart)]
    rfl

end BraceLang
