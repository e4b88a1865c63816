import BraceLang.Proofs.Outcome

/-!
# What rules step over

What is left from a cursor on, and the tokens of some kinds that a rule skips.
-/

namespace BraceLang

open List

variable {kinds kinds' : List TokenKind} {s : List Token} {tokens : Array Token} {i : Nat}
  {t : Token}

def restAt (tokens : Array Token) (i : Nat) : List Token := tokens.toList.drop i

theorem restAt_eq_cons (h : tokens[i]? = some t) : restAt tokens i = t :: restAt tokens (i + 1) := by
  obtain ⟨hlt, rfl⟩ := Array.getElem?_eq_some_iff.1 h
  exact drop_eq_getElem_cons hlt

/-- From `s` to `r` there are only tokens of the kinds. -/
def Skips (kinds : List TokenKind) (s r : List Token) : Prop := ∃ ts, s = ts ++ r ∧ ∀ t ∈ ts, t.kind ∈ kinds

namespace Skips

variable {r r' : List Token}

theorem refl (kinds : List TokenKind) (s : List Token) : Skips kinds s s := ⟨[], rfl, by simp⟩

theorem trans (h : Skips kinds s r) (h' : Skips kinds r r') : Skips kinds s r' := by
  obtain ⟨ts, rfl, hts⟩ := h
  obtain ⟨us, rfl, hus⟩ := h'
  refine ⟨ts ++ us, (List.append_assoc ..).symm, fun t ht => ?_⟩
  rcases mem_append.1 ht with ht | ht
  · exact hts t ht
  · exact hus t ht

theorem one (hs : s = t :: r) (hk : t.kind ∈ kinds) : Skips kinds s r := ⟨[t], hs, by simpa using hk⟩

theorem mono (h : Skips kinds s r) (hkinds : ∀ k ∈ kinds, k ∈ kinds') : Skips kinds' s r := by
  obtain ⟨ts, rfl, hts⟩ := h
  exact ⟨ts, rfl, fun t ht => hkinds _ (hts t ht)⟩

theorem length_le (h : Skips kinds s r) : r.length ≤ s.length := by
  obtain ⟨ts, rfl, -⟩ := h
  simp

end Skips

namespace Parse

variable {W : TokenKind → String → Prop} {S : Tape W}

theorem runs_acceptPastNewline (kinds : List TokenKind) : Runs S (acceptPastNewline kinds) i fun b m =>
    ∃ k, i ≤ k ∧ Skips [.newline] (restAt S.tokens i) (restAt S.tokens k) ∧
      ((b = true ∧ ∃ t, S.tokens[k]? = some t ∧ t.kind ∈ kinds ∧ m = k + 1) ∨ (b = false ∧ m = k)) := by
  have haccept (k : Nat) (hik : i ≤ k) (hk : Skips [.newline] (restAt S.tokens i) (restAt S.tokens k)) :
      Runs S (accept kinds) k fun b m => ∃ k, i ≤ k ∧ Skips [.newline] (restAt S.tokens i) (restAt S.tokens k) ∧
        ((b = true ∧ ∃ t, S.tokens[k]? = some t ∧ t.kind ∈ kinds ∧ m = k + 1) ∨ (b = false ∧ m = k)) := by
    refine runs_mono (runs_accept kinds) ?_
    rintro b m (⟨hb, t, ht, -, hkind, hm⟩ | ⟨hb, -, hm⟩)
    · exact ⟨k, hik, hk, .inl ⟨hb, t, ht, hkind, hm⟩⟩
    · exact ⟨k, hik, hk, .inr ⟨hb, hm.symm⟩⟩
  exact runs_ifStep (fun t ht hk => haccept (i + 1) (Nat.le_succ i) (.one (restAt_eq_cons ht) (mem_singleton.2 hk)))
    (haccept i (Nat.le_refl i) (.refl _ _))

theorem runs_skipAll (kind : TokenKind) :
    Runs S (skipAll kind) i fun _ m => i ≤ m ∧ Skips [kind] (restAt S.tokens i) (restAt S.tokens m) := by
  refine runs_iterate (fun _ m => i ≤ m ∧ Skips [kind] (restAt S.tokens i) (restAt S.tokens m))
    ⟨Nat.le_refl i, .refl _ _⟩ fun _ m hm => runs_ifTaken (fun t ht hk => runs_pure ?_) (runs_pure hm)
  exact ⟨fun _ _ => Nat.lt_succ_self m, by omega, hm.2.trans (.one (restAt_eq_cons ht) (mem_singleton.2 hk))⟩

end Parse

end BraceLang
