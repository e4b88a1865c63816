import BraceLang.Grammar.Cursor

/-!
# Rules over known tokens

What the moves of the cursor do where the tokens are known.
-/

namespace BraceLang

open List

/-- A token without its place. -/
structure Word where
  kind : TokenKind
  text : String
  deriving DecidableEq, Repr

def Token.word? (t : Token) : Option Word := t.value.map (Word.mk t.kind)

def KindAt (tokens : Array Token) (i : Nat) (kind : TokenKind) : Prop := ∃ t, tokens[i]? = some t ∧ t.kind = kind

/-- The words stand in the list from the index on. -/
def Stands (tokens : Array Token) : Nat → List Word → Prop
  | _, [] => True
  | i, w :: ws => (∃ t, tokens[i]? = some t ∧ t.kind = w.kind ∧ t.value = some w.text) ∧ Stands tokens (i + 1) ws

def Lines (tokens : Array Token) (i j : Nat) : Prop := i ≤ j ∧ ∀ l, i ≤ l → l < j → KindAt tokens l .newline

section

variable {tokens : Array Token} {i : Nat} {kind : TokenKind}

theorem stands_append : Stands tokens i (us ++ vs) ↔ Stands tokens i us ∧ Stands tokens (i + us.length) vs := by
  induction us generalizing i with
  | nil => simp [Stands]
  | cons u us ih =>
    have hlen : i + (u :: us).length = i + 1 + us.length := by rw [length_cons]; omega
    rw [cons_append, Stands, Stands, ih, and_assoc, hlen]

variable {step : σ → Parse (σ ⊕ β)} {ws : List Word} {f : α → Parse β} {complaint : String} {ts : List Token} {b : β}

theorem length_of_map_word? (h : ts.map Token.word? = ws.map some) : ts.length = ws.length := by
  have hlen := congrArg List.length h
  rwa [length_map, length_map] at hlen

theorem stands_of_map_word? (h : ts.map Token.word? = ws.map some) (before after : List Token) :
    Stands (before ++ (ts ++ after)).toArray before.length ws := by
  induction ws generalizing ts before with
  | nil => trivial
  | cons w ws ih =>
    cases ts with
    | nil => cases h
    | cons t =>
      rw [map_cons, map_cons, List.cons.injEq] at h
      obtain ⟨v, hv, hw⟩ := Option.map_eq_some_iff.1 h.1
      refine ⟨⟨t, by simp, by rw [← hw], by rw [hv, ← hw]⟩, ?_⟩
      have hrest := ih h.2 (before ++ [t])
      rw [List.append_assoc, length_append] at hrest
      exact hrest

theorem kindAt_append (before after : List Token) (t : Token) :
    KindAt (before ++ t :: after).toArray before.length t.kind := ⟨t, by simp, rfl⟩

theorem Stands.kindAt (h : Stands tokens i (w :: ws)) : KindAt tokens i w.kind := by
  obtain ⟨⟨t, ht, hk, _⟩, _⟩ := h
  exact ⟨t, ht, hk⟩

theorem KindAt.lt_size (h : KindAt tokens i kind) : i < tokens.size := by
  obtain ⟨t, ht, _⟩ := h
  exact (Array.getElem?_eq_some_iff.1 ht).1

theorem KindAt.unique (h : KindAt tokens i kind) (h' : KindAt tokens i kind') : kind = kind' := by
  obtain ⟨t, ht, rfl⟩ := h
  obtain ⟨t', ht', rfl⟩ := h'
  rw [ht] at ht'
  cases ht'
  rfl

theorem lines_self (tokens : Array Token) (i : Nat) : Lines tokens i i := ⟨Nat.le_refl i, fun _ h h' => by omega⟩

theorem Lines.within (h : Lines tokens i j) (hi : i ≤ k) (hij : k ≤ l) (hj : l ≤ j) :
    Lines tokens k l := ⟨hij, fun l hl hlt => h.2 l (by omega) (by omega)⟩

theorem Lines.cons (h : KindAt tokens i .newline) (rest : Lines tokens (i + 1) j) : Lines tokens i j := by
  refine ⟨Nat.le_of_succ_le rest.1, fun l hl hlt => ?_⟩
  rcases Nat.lt_or_eq_of_le hl with hl | rfl
  · exact rest.2 l hl hlt
  · exact h

theorem Stands.lines (h : Stands tokens i ws) (hws : ∀ w ∈ ws, w.kind = .newline) : Lines tokens i (i + ws.length) := by
  induction ws generalizing i with
  | nil => exact lines_self tokens i
  | cons w ws ih =>
    obtain ⟨hw, hws⟩ := forall_mem_cons.1 hws
    rw [length_cons, Nat.add_comm ws.length, ← Nat.add_assoc]
    exact (ih h.2 hws).cons (hw ▸ h.kindAt)

theorem Stands.lt_size (h : Stands tokens i ws) (hne : 0 < ws.length) : i < tokens.size := by
  cases ws with
  | nil => cases hne
  | cons => exact h.kindAt.lt_size

end

namespace Parse

section

variable {tokens : Array Token} {α β σ : Type} {kinds : List TokenKind} {j : Nat} {i k : Int}

/-! ### Sequences and loops -/

theorem bind_ok {p : Parse α} {j : Int} {a : α} (h : p tokens i = .ok a j) : (p >>= f) tokens i = f a tokens j := by
  simp only [bind, h]

theorem bind_fail {p : Parse α} {e : ParseError} {j : Int} (h : p tokens i = .fail e j) :
    (p >>= f) tokens i = .fail e j := by
  simp only [bind, h]

theorem exists_of_bind_ok {p : Parse α} (h : (p >>= f) tokens i = .ok b k) :
    ∃ a j, p tokens i = .ok a j ∧ f a tokens j = .ok b k := by
  cases hp : p tokens i with
  | ok a j => rw [bind_ok hp] at h; exact ⟨a, j, rfl, h⟩
  | fail e j =>
    rw [bind_fail hp] at h
    cases h

theorem repeatWithin_mono {n m : Nat} (hnm : n ≤ m) {s : σ} (h : repeatWithin step n s tokens i = .ok b k) :
    repeatWithin step m s tokens i = .ok b k := by
  induction n generalizing m s i with
  | zero => cases h
  | succ n ih =>
    obtain ⟨m, rfl⟩ : ∃ m', m = m' + 1 := ⟨m - 1, by omega⟩
    obtain ⟨r, j, hstep, hrest⟩ := exists_of_bind_ok h
    rw [repeatWithin, bind_ok hstep]
    cases r with
    | inl => exact ih (by omega) hrest
    | inr => exact hrest

theorem iterate_next {s s' : σ} {i : Nat} (hi : i < tokens.size) (hij : i < j)
    (hstep : step s tokens i = .ok (.inl s') j) (hrest : iterate step s' tokens j = .ok b k) :
    iterate step s tokens i = .ok b k := by
  show repeatWithin step (((tokens.size - i : Int).toNat + 1) + 1) s tokens i = .ok b k
  rw [repeatWithin, bind_ok hstep]
  exact repeatWithin_mono (by omega) hrest

theorem iterate_done {s : σ} {i : Nat} (hstep : step s tokens i = .ok (.inr b) k) :
    iterate step s tokens i = .ok b k := by
  show repeatWithin step (((tokens.size - i : Int).toNat + 1) + 1) s tokens i = .ok b k
  rw [repeatWithin, bind_ok hstep]
  rfl

/-! ### Moves of the cursor -/

variable {i : Nat} {kind : TokenKind} {t : Token}

theorem peek_ok (h : tokens[i]? = some t) : peek 0 tokens i = .ok t i := by
  have hat : tokenAt? tokens ((i : Int) + 0) = some t := by
    unfold tokenAt?
    rw [if_pos (by omega), Int.add_zero, Int.toNat_natCast, h]
  unfold peek
  rw [hat]

theorem previous_ok (h : tokens[i]? = some t) : previous tokens (i + 1 : Nat) = .ok t (i + 1 : Nat) := by
  have hat : tokenAt? tokens (((i + 1 : Nat) : Int) + -1) = some t := by
    unfold tokenAt?
    rw [if_pos (by omega), show (((i + 1 : Nat) : Int) + -1).toNat = i by omega, h]
  unfold previous peek
  rw [hat]

theorem isAtEnd_ok (h : KindAt tokens i kind) : isAtEnd tokens i = .ok (kind == .eof) i := by
  obtain ⟨t, ht, rfl⟩ := h
  unfold isAtEnd
  rw [bind_ok (peek_ok ht)]
  rfl

theorem check_hit (h : KindAt tokens i kind) (hk : kind ≠ .eof ∧ kind ∈ kinds) :
    check kinds tokens i = .ok true i := by
  unfold check
  rw [bind_ok (isAtEnd_ok h), if_neg (by simpa using hk.1)]
  obtain ⟨t, ht, rfl⟩ := h
  rw [bind_ok (peek_ok ht)]
  show Reply.ok (decide (t.kind ∈ kinds)) (i : Int) = .ok true i
  rw [decide_eq_true hk.2]

theorem check_miss (h : KindAt tokens i kind) (hm : kind ∉ kinds) :
    check kinds tokens i = .ok false i := by
  unfold check
  rw [bind_ok (isAtEnd_ok h)]
  by_cases hk : kind = .eof
  · rw [if_pos (by simpa using hk)]
    rfl
  · rw [if_neg (by simpa using hk)]
    obtain ⟨t, ht, rfl⟩ := h
    rw [bind_ok (peek_ok ht)]
    show Reply.ok (decide (t.kind ∈ kinds)) (i : Int) = .ok false i
    rw [decide_eq_false hm]

theorem advance_ok (h : tokens[i]? = some t) (hk : t.kind ≠ .eof) : advance tokens i = .ok t (i + 1 : Nat) := by
  unfold advance
  rw [bind_ok (isAtEnd_ok ⟨t, h, rfl⟩)]
  have hne : (t.kind == TokenKind.eof) = false := by simpa using hk
  rw [hne]
  exact previous_ok h

theorem accept_hit (h : KindAt tokens i kind) (hk : kind ≠ .eof ∧ kind ∈ kinds) :
    accept kinds tokens i = .ok true (i + 1 : Nat) := by
  have hne : kinds.isEmpty = false := by
    cases kinds with
    | nil => cases hk.2
    | cons => rfl
  unfold accept
  rw [if_neg (by simp [hne]), bind_ok (check_hit h hk), if_pos rfl]
  obtain ⟨t, ht, rfl⟩ := h
  rw [bind_ok (advance_ok ht hk.1)]
  rfl

theorem accept_miss (h : KindAt tokens i kind) (hm : kind ∉ kinds) :
    accept kinds tokens i = .ok false i := by
  unfold accept
  split
  · rfl
  · rw [bind_ok (check_miss h hm)]
    rfl

/-! ### Choices -/

variable {p q : Parse β} {kinds : List TokenKind}

theorem ifAccept_hit (h : KindAt tokens i kind) (hk : kind ≠ .eof ∧ kind ∈ kinds) :
    (accept kinds >>= fun b => if b then p else q) tokens i = p tokens (i + 1 : Nat) := by
  rw [bind_ok (accept_hit h hk), if_pos rfl]

theorem ifAccept_miss (h : KindAt tokens i kind) (hm : kind ∉ kinds) :
    (accept kinds >>= fun b => if b then p else q) tokens i = q tokens i := by
  rw [bind_ok (accept_miss h hm), if_neg (by decide)]

theorem ifCheck_hit (h : KindAt tokens i kind) (hk : kind ≠ .eof ∧ kind ∈ kinds) :
    (check kinds >>= fun b => if b then p else q) tokens i = p tokens i := by
  rw [bind_ok (check_hit h hk), if_pos rfl]

theorem ifCheck_miss (h : KindAt tokens i kind) (hm : kind ∉ kinds) :
    (check kinds >>= fun b => if b then p else q) tokens i = q tokens i := by
  rw [bind_ok (check_miss h hm), if_neg (by decide)]

theorem expect_ok (h : tokens[i]? = some t) (hk : t.kind ≠ .eof) :
    expect t.kind complaint tokens i = .ok t (i + 1 : Nat) := by
  unfold expect
  rw [ifCheck_hit ⟨t, h, rfl⟩ ⟨hk, mem_singleton.2 rfl⟩]
  exact advance_ok h hk

theorem expect_bind {p : Token → Parse β} (h : KindAt tokens i kind) (hk : kind ≠ .eof)
    (hrest : ∀ t, tokens[i]? = some t → p t tokens (i + 1 : Nat) = r) :
    (expect kind complaint >>= p) tokens i = r := by
  obtain ⟨t, ht, rfl⟩ := h
  rw [bind_ok (expect_ok ht hk)]
  exact hrest t ht

theorem skipNewlines_ok (h : Lines tokens i j) (hk : KindAt tokens j kind) (hne : kind ≠ .newline) :
    skipNewlines tokens i = .ok () j := by
  obtain ⟨d, rfl⟩ := Nat.exists_eq_add_of_le h.1
  induction d generalizing i with
  | zero =>
    rw [Nat.add_zero] at hk ⊢
    refine iterate_done ?_
    rw [ifAccept_miss hk (by simpa using hne)]
    rfl
  | succ d ih =>
    have hline := h.2 i (Nat.le_refl i) (by omega)
    rw [show i + (d + 1) = i + 1 + d by omega] at h hk ⊢
    refine iterate_next hline.lt_size (Nat.lt_succ_self i) ?_ (ih (h.within (by omega) (by omega) (Nat.le_refl _)) hk)
    rw [ifAccept_hit hline (by decide)]
    rfl

end

end Parse

end BraceLang
