import BraceLang.Proofs.Trails

/-!
# Outcomes of the rules for expressions

An expression that is read fits, with the texts of the tokens that it is read from, and it takes at least one token.
-/

namespace BraceLang

open List

variable {W : TokenKind → String → Prop} {s r : List Token} {t : Token}

def Known (W : TokenKind → String → Prop) (s : List Token) : Prop := ∀ t ∈ s, W t.kind t.text

theorem Known.cons (h : Known W s) (hs : s = t :: r) : W t.kind t.text ∧ Known W r := forall_mem_cons.1 (hs ▸ h)

theorem Known.of_skips (h : Known W s) (hs : Skips kinds s r) : Known W r := by
  obtain ⟨c, rfl, -⟩ := hs
  exact (forall_mem_append.1 h).2

def Part.Fit (W : TokenKind → String → Prop) : Part → Prop
  | .expression _ n | .clauses n => Fits W .expression n
  | .operand n | .condition n => Fits W .operand n
  | .item role n => Fits W role n
  | .items role ns | .group role _ ns => ∀ n ∈ ns, Fits W role n
  | .index n => Fits W .index n
  | .element n key => Fits W .expression n ∧ Fits W .operand key

theorem OperatorTokens.fits (h : OperatorTokens build ts) (hts : Known W ts) (hleft : Fits W .operand left)
    (hright : Fits W .expression right) : Fits W .expression (build left right) := by
  cases h with
  | binary => exact .binary (.inl ⟨_, hts _ mem_cons_self⟩) hleft hright
  | logical => exact .logical (.inl ⟨_, hts _ mem_cons_self⟩) hleft hright
  | _ => exact .binary (.inr (by simp)) hleft hright

theorem IsMark.fits (h : IsMark t op) (ht : W t.kind t.text) :
    ∀ s ∈ op, IsOperatorText W s ∨ s ∈ Parse.compoundMarks.map Prod.snd := by
  intro s hs
  rcases h with ⟨-, rfl⟩ | ⟨text, hmark, rfl⟩
  · exact .inl (.inl ⟨t.kind, by simpa [Token.text, Option.mem_def.1 hs] using ht⟩)
  · cases hs
    exact .inr (mem_map_of_mem hmark)

theorem fits_literal (ht : W t.kind t.text) (hk : (t.kind, kind) ∈ Parse.literalKinds) :
    Fits W .expression (.literal (t.value.elim .absent .text) kind) := by
  refine .literal hk ?_
  cases hvalue : t.value with
  | none => exact .inl rfl
  | some s => exact .inr ⟨s, rfl, by simpa [Token.text, hvalue] using ht⟩

theorem Consumes.fits (h : Consumes part s r) (hs : Known W s) : part.Fit W ∧ Known W r := by
  induction h with
  | identifier heq hk => exact ⟨.identifier (hk ▸ (hs.cons heq).1), (hs.cons heq).2⟩
  | truth heq => exact ⟨.truth _, (hs.cons heq).2⟩
  | nothing heq => exact ⟨.nothing, (hs.cons heq).2⟩
  | literal heq hk => exact ⟨fits_literal (hs.cons heq).1 hk, (hs.cons heq).2⟩
  | @collection _ _ _ _ _ kind _ hkind ih =>
    obtain ⟨hitems, hr⟩ := ih hs
    cases kind with
    | list | tuple | set =>
      cases hkind
      exact ⟨.sequence (by simp) hitems, hr⟩
    | dict =>
      cases hkind
      exact ⟨.dictionary hitems, hr⟩
    | _ => cases hkind
  | parenthesized heq _ _ heq' _ ih | comprehension heq _ _ heq' _ ih =>
    obtain ⟨hn, hs₂⟩ := ih (hs.cons heq).2
    exact ⟨hn, (hs₂.cons heq').2⟩
  | member _ heq _ heq' hu ih =>
    obtain ⟨hobject, hs₁⟩ := ih hs
    obtain ⟨hname, hr⟩ := (hs₁.cons heq).2.cons heq'
    exact ⟨.member hobject (hu ▸ hname), hr⟩
  | call _ _ ih iharguments =>
    obtain ⟨hcallee, hs₁⟩ := ih hs
    obtain ⟨harguments, hr⟩ := iharguments hs₁
    exact ⟨.call hcallee harguments, hr⟩
  | subscript _ heq _ _ heq' _ ih ihindex =>
    obtain ⟨hobject, hs₁⟩ := ih hs
    obtain ⟨hindex, hs₃⟩ := ihindex (hs₁.cons heq).2
    exact ⟨.subscript hobject hindex, (hs₃.cons heq').2⟩
  | unary heq _ _ ih =>
    obtain ⟨ht, hs₁⟩ := hs.cons heq
    exact ⟨.unary ⟨_, ht⟩ (ih hs₁).1, (ih hs₁).2⟩
  | operation _ hop heq _ _ ihleft ihright =>
    obtain ⟨hleft, hs₁⟩ := ihleft hs
    obtain ⟨hts, hs₂⟩ := forall_mem_append.1 (heq ▸ hs₁)
    exact ⟨hop.fits hts hleft (ihright hs₂).1, (ihright hs₂).2⟩
  | assignment _ heq hop _ ihtarget ihvalue =>
    obtain ⟨htarget, hs₁⟩ := ihtarget hs
    obtain ⟨ht, hs₂⟩ := hs₁.cons heq
    exact ⟨.assignment htarget (ihvalue hs₂).1 (hop.fits ht), (ihvalue hs₂).2⟩
  | lines _ hlines ih => exact ⟨(ih hs).1, (ih hs).2.of_skips hlines⟩
  | stray _ heq _ _ ih => exact ⟨(ih hs).1, ((ih hs).2.cons heq).2⟩
  | absent hlines => exact ⟨.missing, hs.of_skips hlines⟩
  | present _ ih => exact ⟨.present (ih hs).1, (ih hs).2⟩
  | plainItem _ hrole ih =>
    rcases hrole with rfl | rfl
    · exact ih hs
    · exact ⟨.plainArgument (ih hs).1, (ih hs).2⟩
  | namedItem heq ht heq' _ _ ih =>
    obtain ⟨hname, hs₁⟩ := hs.cons heq
    obtain ⟨hvalue, hr⟩ := ih (hs₁.cons heq').2
    exact ⟨.namedArgument (ht ▸ hname) hvalue, hr⟩
  | entryItem _ heq _ _ ihkey ihvalue =>
    obtain ⟨hkey, hs₁⟩ := ihkey hs
    obtain ⟨hvalue, hr⟩ := ihvalue (hs₁.cons heq).2
    exact ⟨.entry hkey hvalue, hr⟩
  | noItems => exact ⟨forall_mem_nil _, hs⟩
  | oneItem _ ih => exact ⟨forall_mem_singleton.2 (ih hs).1, (ih hs).2⟩
  | moreItems _ heq _ hlines _ ih ihitem =>
    obtain ⟨hns, hs₁⟩ := ih hs
    obtain ⟨hn, hr⟩ := ihitem ((hs₁.cons heq).2.of_skips hlines)
    exact ⟨forall_mem_append.2 ⟨hns, forall_mem_singleton.2 hn⟩, hr⟩
  | group heq _ hlines _ hend heq' _ ih =>
    obtain ⟨hns, hs₃⟩ := ih ((hs.cons heq).2.of_skips hlines)
    exact ⟨hns, ((hs₃.of_skips hend).cons heq').2⟩
  | plainIndex _ ih => exact ⟨.plainIndex (ih hs).1, (ih hs).2⟩
  | range _ heq _ _ ihstart ihstop =>
    obtain ⟨hstart, hs₁⟩ := ihstart hs
    obtain ⟨hstop, hr⟩ := ihstop (hs₁.cons heq).2
    exact ⟨.slice hstart hstop .missing, hr⟩
  | stepped _ heq _ _ heq' _ _ ihstart ihstop ihstep =>
    obtain ⟨hstart, hs₁⟩ := ihstart hs
    obtain ⟨hstop, hs₃⟩ := ihstop (hs₁.cons heq).2
    obtain ⟨hstep, hr⟩ := ihstep (hs₃.cons heq').2
    exact ⟨.slice hstart hstop hstep, hr⟩
  | plainElement _ ih => exact ⟨⟨(ih hs).1, .missing⟩, (ih hs).2⟩
  | keyedElement _ heq _ _ ihkey ih =>
    obtain ⟨hkey, hs₁⟩ := ihkey hs
    obtain ⟨hn, hr⟩ := ih (hs₁.cons heq).2
    exact ⟨⟨hn, .present hkey⟩, hr⟩
  | noCondition => exact ⟨.missing, hs⟩
  | condition heq _ _ ih =>
    obtain ⟨hn, hr⟩ := ih (hs.cons heq).2
    exact ⟨.present hn, hr⟩
  | clauses _ heq _ _ heq' _ _ _ hkind ihelement ihtarget ihsource ihcondition =>
    obtain ⟨⟨helement, hkey⟩, hs₁⟩ := ihelement hs
    obtain ⟨htarget, hs₃⟩ := ihtarget (hs₁.cons heq).2
    obtain ⟨hsource, hs₅⟩ := ihsource (hs₃.cons heq').2
    obtain ⟨hcondition, hr⟩ := ihcondition hs₅
    exact ⟨.comprehension hkind helement htarget hsource hcondition hkey, hr⟩

namespace Parse

variable {S : Tape W} {i : Nat} {p : Parse Node}

theorem fits_of_readAt (h : ReadAt S (.expression firm n) j m) : Fits W .expression n := by
  have hknown : Known W (restAt S.tokens j) := fun t ht => S.text t (Array.mem_toList_iff.1 (mem_of_mem_drop ht))
  exact (Consumes.fits h hknown).1

theorem takes_read (h : ∀ j, Runs S p j fun n m => ∃ firm, ReadAt S (.expression firm n) j m) :
    Takes S i p (Fits W .expression) :=
  fun j _ => runs_mono (h j) fun _ _ ⟨_, hn⟩ =>
    ⟨⟨Nat.le_of_lt (hn.lt rfl), fun _ => hn.lt rfl, Covers.of_spans hn.spans⟩, fits_of_readAt hn⟩

theorem takes_expression : Takes S i expression (Fits W .expression) := takes_read runs_expression

end Parse

end BraceLang
