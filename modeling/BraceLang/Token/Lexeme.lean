import BraceLang.Text.Digit
import BraceLang.Token

/-!
# Lexemes

What the text of a token looks like.
-/

namespace BraceLang

inductive LexemeForm where
  | comment
  /-- Digits, then a fraction and an exponent as asked for. -/
  | number (fraction exponent : Bool)
  /-- Text between quotes after a tag; three quotes on each side or one. -/
  | quotedText (tag : String) (mark : Char) (triple : Bool)
  /-- A fixed spelling; an empty one fits nothing. -/
  | spelling (s : String)
  /-- A letter or underscore, then letters, digits and underscores. -/
  | word
  deriving DecidableEq, Repr

def isWordStart (c : Char) : Bool := c.isAlpha || c == '_'

def isWordChar (c : Char) : Bool := c.isAlphanum || c == '_'

def digits? (cs : List Char) : Option (List Char × List Char) :=
  if (cs.takeWhile isDecimalDigit).isEmpty then none
  else some (cs.takeWhile isDecimalDigit, cs.dropWhile isDecimalDigit)

def fraction? : List Char → Option (List Char × List Char)
  | '.' :: cs => (digits? cs).map fun (d, r) => ('.' :: d, r)
  | _ => none

def sign : List Char → List Char × List Char
  | '+' :: cs => (['+'], cs)
  | '-' :: cs => (['-'], cs)
  | cs => ([], cs)

def exponent? : List Char → Option (List Char × List Char)
  | c :: cs =>
    if c = 'e' ∨ c = 'E' then (digits? (sign cs).2).map fun (d, r) => (c :: ((sign cs).1 ++ d), r) else none
  | [] => none

def part? (wanted : Bool) (read : List Char → Option (List Char × List Char)) (cs : List Char) :
    Option (List Char × List Char) :=
  if wanted then read cs else some ([], cs)

/-- The text before the first occurrence of `closing`, and the text after it. -/
def cutAt (closing : List Char) : List Char → Option (List Char × List Char)
  | [] => (closing.isPrefixOf? []).map fun r => ([], r)
  | c :: cs =>
    match closing.isPrefixOf? (c :: cs) with
    | some r => some ([], r)
    | none => (cutAt closing cs).map fun (s, r) => (c :: s, r)

namespace LexemeForm

def marks (mark : Char) (triple : Bool) : List Char := if triple then [mark, mark, mark] else [mark]

/-- If a lexeme of the form starts here: the text it stands for and what follows it.  A quoted text stands for what is
between the quotes, any other lexeme for itself. -/
def match? : LexemeForm → List Char → Option (List Char × List Char)
  | comment, cs =>
    match cs with
    | '#' :: _ => some (cs, [])
    | _ => none
  | number fraction exponent, cs => do
    let (whole, r) ← digits? cs
    let (frac, r) ← part? fraction fraction? r
    let (exp, r) ← part? exponent exponent? r
    some (whole ++ frac ++ exp, r)
  | quotedText tag mark triple, cs => do
    let r ← (tag.toList ++ marks mark triple).isPrefixOf? cs
    cutAt (marks mark triple) r
  | spelling s, cs =>
    if s.toList.isEmpty then none else (s.toList.isPrefixOf? cs).map fun r => (s.toList, r)
  | word, cs =>
    match cs with
    | c :: r => if isWordStart c then some (c :: r.takeWhile isWordChar, r.dropWhile isWordChar) else none
    | [] => none

end LexemeForm

def quotedForms (tag : String) (kind : TokenKind) : List (LexemeForm × TokenKind) :=
  [(.quotedText tag '"' true, kind), (.quotedText tag '\'' true, kind), (.quotedText tag '"' false, kind),
    (.quotedText tag '\'' false, kind)]

def lexemes : List (LexemeForm × TokenKind) :=
  [(.comment, .comment), (.number true true, .number), (.number false true, .number), (.number true false, .number),
    (.number false false, .number)] ++
  quotedForms "f" .fstring ++ quotedForms "r" .rstring ++ quotedForms "fr" .frstring ++ quotedForms "rf" .frstring ++
  [(.quotedText "REGEX" '"' false, .regex), (.quotedText "REGEX" '\'' false, .regex)] ++
  quotedForms "" .string ++
  [(.spelling "==", .equal), (.spelling "!=", .notEqual), (.spelling "<=", .lessEqual),
    (.spelling ">=", .greaterEqual), (.spelling "<", .less), (.spelling ">", .greater),
    (.spelling "+=", .plusAssign), (.spelling "-=", .minusAssign), (.spelling "*=", .starAssign),
    (.spelling "/=", .slashAssign), (.spelling "**", .doubleStar), (.spelling "//", .doubleSlash),
    (.spelling "->", .arrow), (.spelling "+", .plus), (.spelling "-", .minus), (.spelling "*", .star),
    (.spelling "/", .slash), (.spelling "%", .percent), (.spelling "=", .assign), (.spelling "(", .lparen),
    (.spelling ")", .rparen), (.spelling "[", .lbracket), (.spelling "]", .rbracket), (.spelling "\x7b", .lbrace),
    (.spelling "\x7d", .rbrace), (.spelling ",", .comma), (.spelling ":", .colon), (.spelling ";", .semicolon),
    (.spelling ".", .dot), (.spelling "@!", .atBang), (.spelling "@(", .atParen), (.spelling "@", .atSign),
    (.word, .identifier)]

/-- The first lexeme of the table that starts here: its kind, the text it stands for, and what follows it.  A word may
turn out to be reserved. -/
def firstLexeme? (cs : List Char) : Option (TokenKind × List Char × List Char) :=
  lexemes.findSome? fun (form, kind) =>
    (form.match? cs).map fun (v, r) =>
      (if kind = .identifier then TokenKind.ofWord (String.ofList v) else kind, v, r)

/-! ### The text of a lexeme -/

def IsDigits (cs : List Char) : Prop := cs ≠ [] ∧ ∀ c ∈ cs, isDecimalDigit c

theorem isDigits_iff {cs : List Char} : (!cs.isEmpty && cs.all isDecimalDigit) ↔ IsDigits cs := by
  simp [IsDigits]

instance (cs : List Char) : Decidable (IsDigits cs) := decidable_of_iff _ isDigits_iff

def IsFraction (cs : List Char) : Prop := ∃ d, IsDigits d ∧ cs = '.' :: d

def IsExponent (cs : List Char) : Prop :=
  ∃ e s d, (e = 'e' ∨ e = 'E') ∧ (s = [] ∨ s = ['+'] ∨ s = ['-']) ∧ IsDigits d ∧ cs = e :: (s ++ d)

def IsNumber (fraction exponent : Bool) (cs : List Char) : Prop :=
  ∃ w f e, IsDigits w ∧ (if fraction then IsFraction f else f = []) ∧ (if exponent then IsExponent e else e = []) ∧
    cs = w ++ (f ++ e)

def IsWord : List Char → Prop
  | [] => False
  | c :: cs => isWordStart c = true ∧ ∀ d ∈ cs, isWordChar d

theorem isWord_iff {cs : List Char} : (cs.head?.any isWordStart && cs.tail.all isWordChar) ↔ IsWord cs := by
  cases cs <;> simp [IsWord]

instance (cs : List Char) : Decidable (IsWord cs) := decidable_of_iff _ isWord_iff

/-- The text is a lexeme of the form that stands for `v`: a quoted text has a tag and quotes around it, any other lexeme
is what it stands for. -/
def LexemeForm.Denotes (v text : List Char) : LexemeForm → Prop
  | comment => text = v ∧ ∃ cs, v = '#' :: cs
  | number fraction exponent => text = v ∧ IsNumber fraction exponent v
  | quotedText tag mark triple => text = tag.toList ++ (marks mark triple ++ (v ++ marks mark triple))
  | spelling s => text = v ∧ v = s.toList ∧ v ≠ []
  | word => text = v ∧ IsWord v

theorem digits?_denotes {cs d r : List Char} (h : digits? cs = some (d, r)) : IsDigits d ∧ cs = d ++ r := by
  unfold digits? at h
  split at h
  · cases h
  · next hne =>
    cases h
    refine ⟨⟨fun h => hne (List.isEmpty_iff.2 h), fun c hc => ?_⟩, List.takeWhile_append_dropWhile.symm⟩
    exact List.all_eq_true.1 List.all_takeWhile c hc

theorem fraction?_denotes {cs f r : List Char} (h : fraction? cs = some (f, r)) :
    IsFraction f ∧ cs = f ++ r := by
  unfold fraction? at h
  split at h
  · obtain ⟨⟨d, r'⟩, hd, heq⟩ := Option.map_eq_some_iff.1 h
    cases heq
    obtain ⟨hdigits, rfl⟩ := digits?_denotes hd
    exact ⟨⟨d, hdigits, rfl⟩, rfl⟩
  · cases h

theorem sign_denotes (cs : List Char) :
    ((sign cs).1 = [] ∨ (sign cs).1 = ['+'] ∨ (sign cs).1 = ['-']) ∧ cs = (sign cs).1 ++ (sign cs).2 := by
  unfold sign
  split <;> simp

theorem exponent?_denotes {cs e r : List Char} (h : exponent? cs = some (e, r)) :
    IsExponent e ∧ cs = e ++ r := by
  unfold exponent? at h
  split at h
  · next c cs =>
    split at h
    · next hc =>
      obtain ⟨⟨d, r'⟩, hd, heq⟩ := Option.map_eq_some_iff.1 h
      cases heq
      obtain ⟨hdigits, hrest⟩ := digits?_denotes hd
      obtain ⟨hsign, hcs⟩ := sign_denotes cs
      refine ⟨⟨c, _, d, hc, hsign, hdigits, rfl⟩, ?_⟩
      rw [List.cons_append, List.append_assoc, ← hrest, ← hcs]
    · cases h
  · cases h

theorem part?_denotes {wanted : Bool} {read : List Char → Option (List Char × List Char)}
    {P : List Char → Prop} (hread : ∀ {cs p r}, read cs = some (p, r) → P p ∧ cs = p ++ r) {cs p r : List Char}
    (h : part? wanted read cs = some (p, r)) : (if wanted then P p else p = []) ∧ cs = p ++ r := by
  cases wanted with
  | false => cases h; exact ⟨rfl, rfl⟩
  | true => exact hread h

theorem eq_append_of_isPrefixOf? {p cs r : List Char} (h : p.isPrefixOf? cs = some r) : cs = p ++ r := by
  induction p generalizing cs with
  | nil => cases h; rfl
  | cons a p ih =>
    cases cs with
    | nil => cases h
    | cons c cs =>
      change (if a == c then p.isPrefixOf? cs else none) = some r at h
      split at h
      · next hac => rw [ih h, eq_of_beq hac, List.cons_append]
      · cases h

theorem cutAt_denotes {closing cs v r : List Char} (h : cutAt closing cs = some (v, r)) :
    cs = v ++ (closing ++ r) := by
  induction cs generalizing v with
  | nil =>
    obtain ⟨r', h', heq⟩ := Option.map_eq_some_iff.1 h
    cases heq
    rw [List.nil_append, ← eq_append_of_isPrefixOf? h']
  | cons c cs ih =>
    unfold cutAt at h
    split at h
    · next r' h' =>
      cases h
      rw [List.nil_append, ← eq_append_of_isPrefixOf? h']
    · obtain ⟨⟨v', r'⟩, h', heq⟩ := Option.map_eq_some_iff.1 h
      cases heq
      rw [ih h', List.cons_append]

/-- What a form finds at the start of a text is a lexeme of the form. -/
theorem LexemeForm.match?_denotes {form : LexemeForm} {cs v r : List Char} (h : form.match? cs = some (v, r)) :
    ∃ text, form.Denotes v text ∧ cs = text ++ r := by
  unfold LexemeForm.match? at h
  split at h
  · split at h
    · cases h; exact ⟨_, ⟨rfl, _, rfl⟩, (List.append_nil _).symm⟩
    · cases h
  · simp only [Option.bind_eq_bind, Option.bind_eq_some_iff, Prod.exists] at h
    obtain ⟨d, r₁, h₁, f, r₂, h₂, e, r₃, h₃, heq⟩ := h
    cases heq
    obtain ⟨hdigits, rfl⟩ := digits?_denotes h₁
    obtain ⟨hfraction, rfl⟩ := part?_denotes fraction?_denotes h₂
    obtain ⟨hexponent, rfl⟩ := part?_denotes exponent?_denotes h₃
    exact ⟨_, ⟨rfl, d, f, e, hdigits, hfraction, hexponent, List.append_assoc ..⟩, by simp⟩
  · obtain ⟨r', hopening, hclosing⟩ := Option.bind_eq_some_iff.1 h
    refine ⟨_, rfl, ?_⟩
    rw [eq_append_of_isPrefixOf? hopening, cutAt_denotes hclosing]
    simp
  · split at h
    · cases h
    · next s hne =>
      obtain ⟨r', hs, heq⟩ := Option.map_eq_some_iff.1 h
      cases heq
      exact ⟨_, ⟨rfl, rfl, fun h => hne (List.isEmpty_iff.2 h)⟩, eq_append_of_isPrefixOf? hs⟩
  · split at h
    · next c cs =>
      split at h
      · next hc =>
        cases h
        refine ⟨_, ⟨rfl, hc, fun d hd => List.all_eq_true.1 List.all_takeWhile d hd⟩, ?_⟩
        rw [List.cons_append, List.takeWhile_append_dropWhile]
      · cases h
    · cases h

theorem LexemeForm.Denotes.ne_nil {form : LexemeForm} {v text : List Char} (h : form.Denotes v text) : text ≠ [] := by
  cases form with
  | comment => obtain ⟨rfl, _, rfl⟩ := h; simp
  | number => obtain ⟨rfl, w, f, e, hw, _, _, rfl⟩ := h; simp [hw.1]
  | quotedText tag mark triple => obtain rfl := h; cases triple <;> simp [marks]
  | spelling => exact h.1 ▸ h.2.2
  | word => obtain ⟨rfl, hw⟩ := h; rintro rfl; exact hw

/-- The first lexeme of a text is a lexeme of a form in the table, in front of what follows. -/
theorem firstLexeme?_denotes {cs v r : List Char} {kind : TokenKind} (h : firstLexeme? cs = some (kind, v, r)) :
    ∃ form k text, (form, k) ∈ lexemes ∧ (if k = .identifier then TokenKind.ofWord (String.ofList v) else k) = kind ∧
      LexemeForm.Denotes v text form ∧ cs = text ++ r := by
  obtain ⟨⟨form, k⟩, hmem, hm⟩ := List.exists_of_findSome?_eq_some h
  obtain ⟨⟨v', r'⟩, h', heq⟩ := Option.map_eq_some_iff.1 hm
  cases heq
  obtain ⟨text, htext, hcs⟩ := LexemeForm.match?_denotes h'
  exact ⟨form, k, text, hmem, rfl, htext, hcs⟩

/-- What follows a lexeme is shorter than what it starts. -/
theorem firstLexeme?_length_lt {cs v r : List Char} {kind : TokenKind} (h : firstLexeme? cs = some (kind, v, r)) :
    r.length < cs.length := by
  obtain ⟨form, k, text, _, _, htext, rfl⟩ := firstLexeme?_denotes h
  have hpos := List.length_pos_iff.2 htext.ne_nil
  rw [List.length_append]
  omega

end BraceLang
