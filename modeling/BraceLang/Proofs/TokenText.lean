import BraceLang.Grammar.Program
import BraceLang.Proofs.EmittedText
import Mathlib.Data.List.Basic

/-!
# The texts of tokens

A lexeme is a part of the line it stands on, so no token has an end of line in its text.
-/

namespace BraceLang

open List

structure TidyText (kind : TokenKind) (s : String) : Prop where
  oneLine : '\n' ∉ s.toList
  name : kind = .identifier → IsName s
  number : kind = .number → ∃ c ∈ s.toList.head?, isDecimalDigit c

theorem LexemeForm.Denotes.subset {form : LexemeForm} (h : form.Denotes v text) : v ⊆ text := by
  intro c hc
  cases form with
  | quotedText => obtain rfl := h; simp [hc]
  | _ => exact h.1 ▸ hc

theorem firstLexeme?_tidy (h : firstLexeme? cs = some (kind, v, r))
    (hcs : '\n' ∉ cs) : TidyText kind (String.ofList v) := by
  refine ⟨?_, fun hkind => ?_, fun hkind => ?_⟩
  · obtain ⟨_, _, text, _, _, htext, rfl⟩ := firstLexeme?_denotes h
    rw [String.toList_ofList]
    exact fun hmem => hcs (mem_append_left _ (htext.subset hmem))
  · obtain ⟨hword, hk⟩ := isWord_of_firstLexeme? h (hkind ▸ mem_cons_self)
    exact ⟨by rwa [String.toList_ofList], hkind ▸ hk⟩
  · subst hkind
    obtain ⟨_, _, hnumber⟩ := isNumber_of_firstLexeme? h
    obtain ⟨c, cs, rfl, hdigit⟩ := hnumber.exists_cons
    exact ⟨c, by simp, hdigit⟩

/-! ### Tokens of a source -/

/-- A lexeme of the kind that stands for `v` starts somewhere on a line of the characters. -/
def Occurs (cs : List Char) (kind : TokenKind) (v : List Char) : Prop :=
  ∃ line ∈ splitLines cs, ∃ rest r, rest <:+ line ∧ firstLexeme? rest = some (kind, v, r)

theorem scanLine_occurs (column : Nat) (cs : List Char) : ∀ x ∈ (scanLine column cs).lexemes,
    ∃ v rest r, x.value = String.ofList v ∧ rest <:+ cs ∧ firstLexeme? rest = some (x.kind, v, r) := by
  have hlater {cs ds : List Char} {x : Lexeme} (hcs : cs <:+ ds)
      (h : ∃ v rest r, x.value = String.ofList v ∧ rest <:+ cs ∧ firstLexeme? rest = some (x.kind, v, r)) :
      ∃ v rest r, x.value = String.ofList v ∧ rest <:+ ds ∧ firstLexeme? rest = some (x.kind, v, r) := by
    obtain ⟨v, rest, r, hv, hrest, hfirst⟩ := h
    exact ⟨v, rest, r, hv, hrest.trans hcs, hfirst⟩
  fun_induction scanLine column cs with
  | case1 => simp
  | case2 column c rest hc ih => exact fun x hx => hlater (suffix_cons c rest) (ih x hx)
  | case3 => simp
  | case4 column c rest hc kind v r hfirst _ tail ih =>
    obtain ⟨_, _, text, _, _, _, hparts⟩ := firstLexeme?_denotes hfirst
    exact forall_mem_cons.2 ⟨⟨v, _, r, rfl, suffix_rfl, hfirst⟩, fun x hx => hlater ⟨text, hparts.symm⟩ (ih x hx)⟩

theorem splitLines_oneLine (cs : List Char) : ∀ l ∈ splitLines cs, '\n' ∉ l := by
  fun_induction splitLines cs with
  | case1 => simp
  | case2 cs ih => exact forall_mem_cons.2 ⟨not_mem_nil, ih⟩
  | case3 c cs hc => simp [Ne.symm hc]
  | case4 c cs hc l ls hlines ih =>
    obtain ⟨hl, hls⟩ := forall_mem_cons.1 (hlines ▸ ih)
    exact forall_mem_cons.2 ⟨by simp [Ne.symm hc, hl], hls⟩

theorem scanLines_occurs (line : Nat) (last : LastKinds) (ls : List (List Char)) :
    ∀ t ∈ (scanLines line last ls).tokens, (t.kind = .newline ∨ t.kind = .eof) ∧ '\n' ∉ t.text.toList ∨
      ∃ v, t.value = some (String.ofList v) ∧
        ∃ l ∈ ls, ∃ rest r, rest <:+ l ∧ firstLexeme? rest = some (t.kind, v, r) := by
  induction ls generalizing line last with
  | nil =>
    intro t ht
    obtain rfl := mem_singleton.1 ht
    exact .inl ⟨.inr rfl, (by decide : '\n' ∉ "".toList)⟩
  | cons l ls ih =>
    intro t ht
    unfold scanLines at ht
    dsimp only at ht
    split at ht
    · cases ht
    · rcases mem_append.1 ht with hline | hrest
      · rcases mem_append.1 hline with hlexeme | hend
        · obtain ⟨x, hx, rfl⟩ := mem_map.1 hlexeme
          obtain ⟨v, rest, r, hv, hfound⟩ := scanLine_occurs 0 l x (mem_filter.1 hx).1
          exact .inr ⟨v, congrArg some hv, l, mem_cons_self, rest, r, hfound⟩
        · obtain rfl := mem_singleton.1 hend
          exact .inl ⟨.inl rfl, (by decide : '\n' ∉ "\\\\n".toList)⟩
      · refine (ih _ _ t hrest).imp id ?_
        rintro ⟨v, hv, m, hm, hfound⟩
        exact ⟨v, hv, m, mem_cons_of_mem l hm, hfound⟩

/-- Every token but the ends of line and the end mark is a lexeme of the source. -/
theorem tokenize_occurs (h : tokenize source = .ok tokens) :
    ∀ t ∈ tokens, (t.kind = .newline ∨ t.kind = .eof) ∧ '\n' ∉ t.text.toList ∨
      ∃ v, t.value = some (String.ofList v) ∧ Occurs source.toList t.kind v := by
  unfold tokenize at h
  dsimp only at h
  split at h
  · cases h
  · cases h
    exact scanLines_occurs _ _ _

theorem tokenize_tidy (h : tokenize source = .ok tokens) : ∀ t ∈ tokens, TidyText t.kind t.text := by
  intro t ht
  rcases tokenize_occurs h t ht with ⟨hkind | hkind, hline⟩ | ⟨v, hv, line, hline, rest, r, hrest, hfirst⟩
  · exact hkind ▸ ⟨hline, nofun, nofun⟩
  · exact hkind ▸ ⟨hline, nofun, nofun⟩
  · rw [Token.text, hv]
    exact firstLexeme?_tidy hfirst fun hmem => splitLines_oneLine _ line hline (hrest.subset hmem)

end BraceLang
