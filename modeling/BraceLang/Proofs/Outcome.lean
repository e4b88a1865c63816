import BraceLang.Proofs.KnownTokens

/-!
# Outcomes of grammar rules

On a list with an end mark a rule gives a value, a rejection, or the error of a reserved word.
-/

namespace BraceLang

/-- The first end mark of the list stands at the index `e`. -/
structure EndsAt (tokens : Array Token) (e : Nat) : Prop where
  isEnd : ∃ t, tokens[e]? = some t ∧ t.kind = .eof
  before : ∀ i, i < e → ∃ t, tokens[i]? = some t ∧ t.kind ≠ .eof

/-- The reply is a value with the postcondition, a rejection, or the error of a reserved word at the cursor, and the
cursor is not behind the end mark. -/
def Reply.Within {α : Type} (tokens : Array Token) (e : Nat) (P : α → Int → Prop) : Reply α → Prop
  | .ok a j => 0 ≤ j ∧ j ≤ e ∧ P a j
  | .fail (.rejected _) j => 0 ≤ j ∧ j ≤ e
  | .fail .lambdaReserved j => 0 < j ∧ j ≤ e ∧ ∃ t, tokenAt? tokens (j - 1) = some t ∧ t.kind = .lambdaKw
  | .fail _ _ => False

namespace Parse

/-- From the cursor `i`, if it is not behind the end mark, the reply of the rule is within the list and has the
postcondition. -/
def Meets {α : Type} (tokens : Array Token) (e : Nat) (p : Parse α) (i : Int) (P : α → Int → Prop) : Prop :=
  0 ≤ i → i ≤ e → (p tokens i).Within tokens e P

def Stays {α : Type} (i : Int) (_ : α) (j : Int) : Prop := i ≤ j

def Moves {α : Type} (i : Int) (_ : α) (j : Int) : Prop := i < j

end Parse

/-- A token list.  `W` holds of the kind and the text of each token, `stop` is the place of the first end mark, if it is
known, and the cursor stays behind `start`. -/
structure Tape (W : TokenKind → String → Prop) where
  tokens : Array Token
  stop : Option Nat
  ends : ∀ e ∈ stop, EndsAt tokens e
  text : ∀ t ∈ tokens, W t.kind t.text
  start : Nat := 0

namespace Tape

variable {W : TokenKind → String → Prop} {S : Tape W} {t : Token} {kind : TokenKind} {i j n e : Nat}

abbrev onward (S : Tape W) (i : Nat) : Tape W := { S with start := i }

/-- A list of which nothing is known. -/
abbrev bare (tokens : Array Token) : Tape fun _ _ => True := ⟨tokens, none, by simp, fun _ _ => trivial, 0⟩

def Holds (S : Tape W) (i : Nat) : Prop := ∀ e ∈ S.stop, S.start ≤ i ∧ i ≤ e

/-- The number exceeds the number of tokens from the cursor to the end mark. -/
def Allows (S : Tape W) (i n : Nat) : Prop := ∀ e ∈ S.stop, e < i + n

theorem known_text (ht : t ∈ S.tokens) (hk : t.kind = kind) : W kind t.text := hk ▸ S.text t ht

theorem known_value (ht : t ∈ S.tokens) (hk : t.kind = kind) : ∀ s ∈ t.value, W kind s := by
  intro s hs
  simpa [Token.text, Option.mem_def.1 hs] using known_text ht hk

theorem Allows.next (h : S.Allows i (n + 1)) (hij : i < j) : S.Allows j n := by
  intro e he
  have := h e he
  omega

theorem stop_lt_size (he : e ∈ S.stop) : e < S.tokens.size := by
  obtain ⟨t, ht, _⟩ := (S.ends e he).isEnd
  exact (Array.getElem?_eq_some_iff.1 ht).1

theorem allows_budget (S : Tape W) (i : Nat) : S.Allows i ((S.tokens.size - i : Int).toNat + 2) := by
  intro e he
  have := S.stop_lt_size he
  omega

theorem Holds.next (h : S.Holds i) (ht : S.tokens[i]? = some t) (hk : t.kind ≠ .eof) : S.Holds (i + 1) := by
  refine fun e he => ⟨Nat.le_succ_of_le (h e he).1, Nat.lt_of_le_of_ne (h e he).2 ?_⟩
  rintro rfl
  obtain ⟨u, hu, heof⟩ := (S.ends i he).isEnd
  cases ht.symm.trans hu
  exact hk heof

end Tape

theorem mem_of_tokenAt? (h : tokenAt? tokens i = some t) : t ∈ tokens := by
  unfold tokenAt? at h
  split at h
  · exact Array.mem_of_getElem? h
  · split at h
    · exact Array.mem_of_getElem? h
    · cases h

/-- A value with the postcondition; or a failure, which is one of those that an end mark leaves. -/
def Reply.Along {W : TokenKind → String → Prop} {α : Type} (S : Tape W) (P : α → Nat → Prop) : Reply α → Prop
  | .ok a j => ∃ m : Nat, j = m ∧ S.Holds m ∧ P a m
  | .fail err j => ∀ e ∈ S.stop, (Reply.fail err j : Reply Unit).Within S.tokens e fun _ _ => True

namespace Parse

/-- From the cursor `i`, if it is in the list, the rule runs along the list and has the postcondition. -/
def Runs {W : TokenKind → String → Prop} {α : Type} (S : Tape W) (p : Parse α) (i : Nat) (P : α → Nat → Prop) : Prop :=
  S.Holds i → (p S.tokens i).Along S P

section

variable {W : TokenKind → String → Prop} {S : Tape W} {α β σ : Type} {P Q : α → Nat → Prop} {R : β → Nat → Prop}
  {p q : Parse α} {g : Token → Parse α} {kind : TokenKind} {kinds : List TokenKind} {i j : Nat} {t : Token}
  {step : σ → Parse (σ ⊕ α)} {reason complaint : String} {radius : Int} {a : α}

theorem Runs.meets {P : α → Int → Prop} {i : Int} (he : S.stop = some e) (hstart : S.start = 0)
    (hp : ∀ m : Nat, i = m → Runs S p m fun a k => P a k) : Meets S.tokens e p i P := by
  intro h0 h1
  obtain ⟨m, rfl⟩ := Int.eq_ofNat_of_zero_le h0
  have hr := hp m rfl fun e' he' => by cases he.symm.trans he'; omega
  cases hreply : p S.tokens m with
  | ok a j =>
    rw [hreply] at hr
    obtain ⟨k, rfl, hk, ha⟩ := hr
    have := hk e he
    exact ⟨by omega, by omega, ha⟩
  | fail err =>
    rw [hreply] at hr
    have hw := hr e he
    cases err <;> exact hw

/-- Without a known end mark, a rule that runs says only what its values are. -/
theorem Runs.value {j : Int} (hp : Runs S p i P) (he : S.stop = none) (h : p S.tokens i = .ok a j) :
    ∃ m : Nat, j = m ∧ P a m := by
  have hr := hp (by simp [Tape.Holds, he])
  rw [h] at hr
  obtain ⟨m, hm, -, ha⟩ := hr
  exact ⟨m, hm, ha⟩

theorem runs_mono (hp : Runs S p i P) (h : ∀ a m, P a m → Q a m) : Runs S p i Q := by
  intro hi
  have hr := hp hi
  cases hreply : p S.tokens i with
  | ok a j =>
    rw [hreply] at hr
    obtain ⟨m, hm, hold, ha⟩ := hr
    exact ⟨m, hm, hold, h a m ha⟩
  | fail => rw [hreply] at hr; exact hr

theorem runs_pure (h : P a i) : Runs S (pure a) i P := fun hi => ⟨i, rfl, hi, h⟩

theorem runs_bind {f : α → Parse β} (hp : Runs S p i P) (hf : ∀ a m, P a m → Runs S (f a) m R) :
    Runs S (p >>= f) i R := by
  intro hi
  have hr := hp hi
  simp only [bind]
  cases hreply : p S.tokens i with
  | ok a j =>
    rw [hreply] at hr
    obtain ⟨m, rfl, hold, ha⟩ := hr
    exact hf a m ha hold
  | fail => rw [hreply] at hr; exact hr

theorem runs_reject : Runs S (reject reason radius) i P := by
  intro hi e he
  have := hi e he
  exact ⟨by omega, by omega⟩

theorem runs_reject_bind {f : α → Parse β} : Runs S (reject reason radius >>= f) i R :=
  runs_bind (P := fun _ _ => False) runs_reject fun _ _ h => h.elim

theorem runs_exhausted (h : S.Allows i 0) : Runs S (fail .exhausted) i P := by
  intro hi e he
  have := h e he
  have := hi e he
  omega

theorem runs_of_holds (h : S.Holds i → Runs S p i P) : Runs S p i P := fun hi => h hi hi

/-- What a rule does from an index on, it does along the whole list. -/
theorem Runs.widen (h : Runs (S.onward j) p i P) (hj : ∀ e ∈ S.stop, S.start ≤ j ∧ j ≤ i) : Runs S p i P := by
  intro hi
  have hr := h fun e he => ⟨(hj e he).2, (hi e he).2⟩
  change (p S.tokens i).Along (S.onward j) P at hr
  cases hreply : p S.tokens i with
  | ok a k =>
    rw [hreply] at hr
    obtain ⟨m, hm, hold, ha⟩ := hr
    exact ⟨m, hm, fun e he => ⟨Nat.le_trans (hj e he).1 (hold e he).1, (hold e he).2⟩, ha⟩
  | fail => rw [hreply] at hr; exact hr

/-- A loop whose rounds move the cursor, the last one excepted, ends within its budget. -/
theorem runs_iterate {s : σ} (inv : σ → Nat → Prop) (hs : inv s i)
    (hstep : ∀ s m, inv s m → Runs S (step s) m fun r k =>
      Sum.elim (fun s => (∀ e ∈ S.stop, m < k) ∧ inv s k) (fun a => P a k) r) : Runs S (iterate step s) i P := by
  have hloop (n : Nat) : ∀ s m, S.Allows m n → inv s m → Runs S (repeatWithin step n s) m P := by
    induction n with
    | zero => exact fun _ _ hn _ => runs_exhausted hn
    | succ n ih =>
      intro s m hn hs
      refine runs_bind (hstep s m hs) fun r k hr => ?_
      cases r with
      | inl s' => exact ih s' k (fun e he => hn.next (hr.1 e he) e he) hr.2
      | inr => exact runs_pure hr
  exact hloop _ s i (S.allows_budget i) hs

/-! ### Moves of the cursor -/

theorem runs_cursor : Runs S cursor i fun j m => j = i ∧ i = m := fun hi => ⟨i, rfl, hi, rfl, rfl⟩

theorem runs_budget : Runs S budget i fun n m => i = m ∧ S.Allows i n :=
  fun hi => ⟨i, rfl, hi, rfl, S.allows_budget i⟩

theorem runs_seek {f : Unit → Parse α} (hj : S.Holds j) (h : Runs S (f ()) j P) : Runs S (seek j >>= f) i P :=
  fun _ => h hj

theorem tokenAt?_natCast (tokens : Array Token) (i : Nat) : tokenAt? tokens i = tokens[i]? := by
  unfold tokenAt?
  rw [if_pos (by omega), Int.toNat_natCast]

theorem runs_peek : Runs S peek i fun t m => i = m ∧ S.tokens[i]? = some t := by
  intro hi
  unfold peek
  rw [Int.add_zero, tokenAt?_natCast]
  cases ht : S.tokens[i]? with
  | some => exact ⟨i, rfl, hi, rfl, rfl⟩
  | none =>
    intro e he
    have := S.stop_lt_size he
    have := hi e he
    exact absurd (Array.getElem?_eq_none_iff.1 ht) (by omega)

theorem runs_previous : Runs S previous i fun t m => i = m ∧ tokenAt? S.tokens (i - 1) = some t := by
  intro hi
  unfold previous peek
  rw [show (i : Int) + -1 = i - 1 from rfl]
  cases ht : tokenAt? S.tokens (i - 1) with
  | some => exact ⟨i, rfl, hi, rfl, rfl⟩
  | none =>
    -- before the first token the index counts from the end, where there is a token as well
    intro e he
    have hsize := S.stop_lt_size he
    have := hi e he
    unfold tokenAt? at ht
    split at ht
    · exact absurd (Array.getElem?_eq_none_iff.1 ht) (by omega)
    · rw [if_pos (by omega)] at ht
      exact absurd (Array.getElem?_eq_none_iff.1 ht) (by omega)

theorem runs_isAtEnd : Runs S isAtEnd i fun b m => i = m ∧ ∃ t, S.tokens[i]? = some t ∧ (b = true ↔ t.kind = .eof) := by
  refine runs_bind runs_peek ?_
  rintro t _ ⟨rfl, ht⟩
  exact runs_pure ⟨rfl, t, ht, by simp⟩

theorem runs_check (kinds : List TokenKind) : Runs S (check kinds) i fun b m =>
    i = m ∧ ∃ t, S.tokens[i]? = some t ∧ (b = true ↔ t.kind ≠ .eof ∧ t.kind ∈ kinds) := by
  refine runs_bind runs_isAtEnd ?_
  rintro b _ ⟨rfl, t, ht, hb⟩
  split
  · next hend => exact runs_pure ⟨rfl, t, ht, by simp [hb.1 hend]⟩
  · next hend =>
    refine runs_bind runs_peek ?_
    rintro u _ ⟨rfl, hu⟩
    cases ht.symm.trans hu
    have hne : t.kind ≠ .eof := fun h => hend (hb.2 h)
    exact runs_pure ⟨rfl, t, ht, by simp [hne]⟩

theorem runs_advance : Runs S advance i fun u m => u ∈ S.tokens ∧
    ∃ t, S.tokens[i]? = some t ∧ (t.kind ≠ .eof → u = t ∧ m = i + 1) ∧ (t.kind = .eof → i = m) := by
  refine runs_of_holds fun hi => runs_bind runs_isAtEnd ?_
  rintro b _ ⟨rfl, t, ht, hb⟩
  extract_lets last
  have hlast (k : Nat) : Runs S (last ()) k fun u m => k = m ∧ tokenAt? S.tokens (k - 1) = some u := runs_previous
  split
  · next hend =>
    refine runs_mono (hlast i) ?_
    rintro u _ ⟨rfl, hu⟩
    exact ⟨mem_of_tokenAt? hu, t, ht, fun hne => absurd (hb.1 hend) hne, fun _ => rfl⟩
  · next hend =>
    have hkind : t.kind ≠ .eof := fun h => hend (hb.2 h)
    refine runs_bind runs_cursor ?_
    rintro _ _ ⟨rfl, rfl⟩
    refine runs_seek (j := i + 1) (hi.next ht hkind) (runs_mono (hlast _) ?_)
    rintro u _ ⟨rfl, hu⟩
    rw [Int.natCast_add, Int.natCast_one, Int.add_sub_cancel, tokenAt?_natCast, ht] at hu
    cases hu
    exact ⟨Array.mem_of_getElem? ht, t, ht, fun _ => ⟨rfl, rfl⟩, fun h => absurd h hkind⟩

theorem runs_step (ht : S.tokens[i]? = some t) (hk : t.kind ≠ .eof) :
    Runs S advance i fun u m => u = t ∧ m = i + 1 := by
  refine runs_mono runs_advance ?_
  rintro u m ⟨-, t', ht', hmove, -⟩
  cases ht.symm.trans ht'
  exact hmove hk

theorem runs_step_bind (ht : S.tokens[i]? = some t) (hk : t.kind ≠ .eof) (h : Runs S (g t) (i + 1) P) :
    Runs S (advance >>= g) i P := by
  refine runs_bind (runs_step ht hk) ?_
  rintro _ _ ⟨rfl, rfl⟩
  exact h

theorem runs_previous_bind (ht : S.tokens[i]? = some t) (h : Runs S (g t) (i + 1) P) :
    Runs S (previous >>= g) (i + 1) P := by
  refine runs_bind runs_previous ?_
  rintro u _ ⟨rfl, hu⟩
  rw [Int.natCast_add, Int.natCast_one, Int.add_sub_cancel, tokenAt?_natCast, ht] at hu
  cases hu
  exact h

theorem runs_accept (kinds : List TokenKind) : Runs S (accept kinds) i fun b m =>
    (b = true ∧ ∃ t, S.tokens[i]? = some t ∧ t.kind ≠ .eof ∧ t.kind ∈ kinds ∧ m = i + 1) ∨
    (b = false ∧ (∀ t, S.tokens[i]? = some t → t.kind ∈ kinds → t.kind = .eof) ∧ i = m) := by
  unfold accept
  split
  · next hempty =>
    rw [List.isEmpty_iff] at hempty
    exact runs_pure (.inr ⟨rfl, by simp [hempty], rfl⟩)
  · refine runs_bind (runs_check kinds) ?_
    rintro b _ ⟨rfl, t, ht, hb⟩
    split
    · next hyes =>
      obtain ⟨hne, hk⟩ := hb.1 hyes
      exact runs_step_bind ht hne (runs_pure (.inl ⟨rfl, t, ht, hne, hk, rfl⟩))
    · next hno =>
      refine runs_pure (.inr ⟨rfl, fun u hu hk => ?_, rfl⟩)
      cases ht.symm.trans hu
      exact Decidable.byContradiction fun hne => hno (hb.2 ⟨hne, hk⟩)

theorem runs_ifAccept (hp : ∀ t, S.tokens[i]? = some t → t.kind ≠ .eof → t.kind ∈ kinds → Runs S p (i + 1) P)
    (hq : (∀ t, S.tokens[i]? = some t → t.kind ∈ kinds → t.kind = .eof) → Runs S q i P) :
    Runs S (accept kinds >>= fun b => if b then p else q) i P := by
  refine runs_bind (runs_accept kinds) ?_
  rintro b _ (⟨rfl, t, ht, hne, hk, rfl⟩ | ⟨rfl, hno, rfl⟩)
  · exact hp t ht hne hk
  · exact hq hno

theorem runs_ifCheck (hp : ∀ t, S.tokens[i]? = some t → t.kind ≠ .eof → t.kind ∈ kinds → Runs S p i P)
    (hq : (∀ t, S.tokens[i]? = some t → t.kind ∈ kinds → t.kind = .eof) → Runs S q i P) :
    Runs S (check kinds >>= fun b => if b then p else q) i P := by
  refine runs_bind (runs_check kinds) ?_
  rintro b _ ⟨rfl, t, ht, hb⟩
  split
  · next hyes => exact hp t ht (hb.1 hyes).1 (hb.1 hyes).2
  · next hno =>
    refine hq fun u hu hk => ?_
    cases ht.symm.trans hu
    exact Decidable.byContradiction fun hne => hno (hb.2 ⟨hne, hk⟩)

theorem runs_ifTaken (hp : ∀ t, S.tokens[i]? = some t → t.kind = kind → Runs S p (i + 1) P) (hq : Runs S q i P) :
    Runs S (accept [kind] >>= fun b => if b then p else q) i P :=
  runs_ifAccept (fun t ht _ hk => hp t ht (List.mem_singleton.1 hk)) fun _ => hq

theorem runs_ifStep (hg : ∀ t, S.tokens[i]? = some t → t.kind = kind → Runs S (g t) (i + 1) P) (hq : Runs S q i P) :
    Runs S (check [kind] >>= fun b => if b then advance >>= g else q) i P :=
  runs_ifCheck (fun t ht hne hk => runs_step_bind ht hne (hg t ht (List.mem_singleton.1 hk))) fun _ => hq

theorem runs_expect (kind : TokenKind) (complaint : String) :
    Runs S (expect kind complaint) i fun t m => S.tokens[i]? = some t ∧ t.kind = kind ∧ m = i + 1 := by
  refine runs_ifCheck (fun t ht hne hk => ?_) fun _ => ?_
  · refine runs_mono (runs_step ht hne) ?_
    rintro _ _ ⟨rfl, rfl⟩
    exact ⟨ht, List.mem_singleton.1 hk, rfl⟩
  · exact runs_bind runs_peek fun _ _ _ => runs_reject

theorem runs_expect_bind (h : ∀ t, S.tokens[i]? = some t → t.kind = kind → Runs S (g t) (i + 1) P) :
    Runs S (expect kind complaint >>= g) i P := by
  refine runs_bind (runs_expect kind complaint) ?_
  rintro t _ ⟨ht, hk, rfl⟩
  exact h t ht hk

theorem nextKindFrom_search (tokens : Array Token) (n : Nat) :
    ∀ j : Int, 0 ≤ j → ∃ k, nextKindFrom.search tokens n j = some k := by
  induction n with
  | zero => intro j _; exact ⟨.eof, rfl⟩
  | succ n ih =>
    intro j h0
    unfold nextKindFrom.search
    split
    · next hlt =>
      unfold tokenAt?
      rw [if_pos h0, Array.getElem?_eq_getElem (by omega)]
      dsimp only
      split
      · exact ih (j + 1) (by omega)
      · exact ⟨_, rfl⟩
    · exact ⟨.eof, rfl⟩

theorem runs_nextKindFrom (hstart : ∀ e ∈ S.stop, 0 ≤ start) : Runs S (nextKindFrom start) i fun _ m => i = m := by
  intro hi
  unfold nextKindFrom
  split
  · exact ⟨i, rfl, hi, rfl⟩
  · next hnone =>
    intro e he
    obtain ⟨k, hk⟩ := nextKindFrom_search S.tokens ((S.tokens.size - start).toNat + 1) start (hstart e he)
    cases hnone.symm.trans hk

end

end Parse

end BraceLang
