import BraceLang.Grammar.Program
import BraceLang.Proofs.Brackets

/-!
# Stretches of tokens

Three rules step over tokens without matching the brackets among them: a type behind a colon is a run of names,
commas, points and square brackets, the default of a parameter is any one token, and in a switch the tokens before the
first case are skipped.  A rule that starts inside a stretch, behind an opening bracket or behind a keyword, leaves a
trail that the token before it makes whole.
-/

namespace BraceLang

open List

/-! ### Loose runs -/

inductive Region where
  | statements | parameters

def typeKinds : List TokenKind := [.identifier, .lbracket, .rbracket, .comma, .dot]

/-- The kinds of the tokens between the keyword of a declaration and its parameters. -/
def headKinds : List TokenKind := [.classKw, .identifier, .less, .extendsKw, .implementsKw, .comma, .greater]

def switchKinds : List TokenKind := [.caseKw, .defaultKw, .rbrace]

/-- The brackets of a stretch of tokens are matched apart from its loose runs. -/
inductive Bracketed : Region → List Token → List (List Token) → Prop
  | sound {region : Region} {c : List Token} (h : Balanced c) : Bracketed region c []
  | append {region : Region} {c d : List Token} {ls ms : List (List Token)} (h : Bracketed region c ls)
      (h' : Bracketed region d ms) : Bracketed region (c ++ d) (ls ++ ms)
  | enclosed {b : Bracket} {t u : Token} {c : List Token} {ls : List (List Token)} (ht : t.kind = b.opening.kind)
      (h : Bracketed .statements c ls) (hu : u.kind = b.closing.kind) : Bracketed .statements (t :: c ++ [u]) ls
  | typed {t : Token} {c : List Token} (ht : t.kind = .colon) (hc : ∀ u ∈ c, u.kind ∈ typeKinds) :
      Bracketed .statements (t :: c) [c]
  | default {t u : Token} (ht : t.kind = .assign) : Bracketed .parameters [t, u] [[u]]
  /-- The head of a function or data class with its parameters. -/
  | parameters {t u v : Token} {head c : List Token} {ls : List (List Token)} (ht : t.kind = .defKw ∨ t.kind = .dataKw)
      (hhead : ∀ w ∈ head, w.kind ∈ headKinds) (hu : u.kind = .lparen) (h : Bracketed .parameters c ls)
      (hv : v.kind = .rparen) : Bracketed .statements (t :: head ++ (u :: c ++ [v])) ls
  /-- A switch whose subject has been read, with the tokens that are skipped and the cases. -/
  | switch {t u v : Token} {subject skipped c : List Token} {ls : List (List Token)} (ht : t.kind = .switchKw)
      (hsubject : Balanced subject) (hu : u.kind = .lbrace) (hskipped : ∀ w ∈ skipped, w.kind ∉ switchKinds)
      (hcases : ∀ w ∈ c.head?, w.kind ∈ switchKinds) (h : Bracketed .statements c ls) (hv : v.kind = .rbrace) :
      Bracketed .statements (t :: subject ++ (u :: (skipped ++ c) ++ [v])) (skipped :: ls)

def Covers (region : Region) (s r : List Token) : Prop := ∃ c ls, s = c ++ r ∧ Bracketed region c ls

section

variable {region : Region} {s s₁ s₂ r r₁ : List Token} {t u v : Token} {b : Bracket}

namespace Covers

theorem of_spans (h : Spans s r) : Covers region s r := by
  obtain ⟨c, rfl, hc⟩ := h
  exact ⟨c, [], rfl, .sound hc⟩

theorem refl (region : Region) (s : List Token) : Covers region s s := of_spans (.refl s)

theorem trans (h : Covers region s s₁) (h' : Covers region s₁ r) : Covers region s r := by
  obtain ⟨c, ls, rfl, hc⟩ := h
  obtain ⟨d, ms, rfl, hd⟩ := h'
  exact ⟨c ++ d, ls ++ ms, (List.append_assoc ..).symm, hc.append hd⟩

theorem token (hk : t.kind ∉ bracketKinds) : Covers region (t :: r) r := of_spans (.token rfl hk)

theorem enclosed (ht : t.kind = b.opening.kind) (h : Covers .statements s (u :: r)) (hu : u.kind = b.closing.kind) :
    Covers .statements (t :: s) r := by
  obtain ⟨c, ls, rfl, hc⟩ := h
  exact ⟨t :: c ++ [u], ls, by simp, hc.enclosed ht hu⟩

theorem typed (ht : t.kind = .colon) (h : Skips typeKinds s r) : Covers .statements (t :: s) r := by
  obtain ⟨c, rfl, hc⟩ := h
  exact ⟨t :: c, [c], rfl, .typed ht hc⟩

theorem default (ht : t.kind = .assign) : Covers .parameters (t :: u :: r) r := ⟨[t, u], [[u]], rfl, .default ht⟩

theorem parameters (ht : t.kind = .defKw ∨ t.kind = .dataKw) (hs : Skips headKinds s (u :: s₁)) (hu : u.kind = .lparen)
    (h : Covers .parameters s₁ (v :: r)) (hv : v.kind = .rparen) : Covers .statements (t :: s) r := by
  obtain ⟨head, rfl, hhead⟩ := hs
  obtain ⟨c, ls, rfl, hc⟩ := h
  exact ⟨t :: head ++ (u :: c ++ [v]), ls, by simp, .parameters ht hhead hu hc hv⟩

end Covers

/-- The inside of a switch so far: skipped tokens, then cases, behind which the next case or the end has to follow. -/
def SwitchInside (s r : List Token) : Prop := ∃ skipped c ls, s = skipped ++ c ++ r ∧
  (∀ w ∈ skipped, w.kind ∉ switchKinds) ∧ (∀ w ∈ c.head?, w.kind ∈ switchKinds) ∧ Bracketed .statements c ls ∧
  (c ≠ [] → ∃ w ∈ r.head?, w.kind ∈ switchKinds)

namespace SwitchInside

theorem refl (s : List Token) : SwitchInside s s :=
  ⟨[], [], [], rfl, by simp, by simp, .sound .nil, fun h => absurd rfl h⟩

theorem skip (h : SwitchInside s (t :: r)) (ht : t.kind ∉ switchKinds) : SwitchInside s r := by
  obtain ⟨skipped, c, ls, rfl, hskipped, -, -, hnext⟩ := h
  obtain rfl : c = [] := by
    refine Decidable.byContradiction fun hc => ?_
    obtain ⟨w, hw, hk⟩ := hnext hc
    cases hw
    exact ht hk
  refine ⟨skipped ++ [t], [], [], by simp, ?_, by simp, .sound .nil, fun h => absurd rfl h⟩
  rw [forall_mem_append, forall_mem_singleton]
  exact ⟨hskipped, ht⟩

theorem case (h : SwitchInside s (t :: r)) (ht : t.kind = .caseKw ∨ t.kind = .defaultKw)
    (hcase : Covers .statements r r₁) (hnext : ∃ w ∈ r₁.head?, w.kind ∈ switchKinds) : SwitchInside s r₁ := by
  obtain ⟨skipped, c, ls, rfl, hskipped, hhead, hc, -⟩ := h
  obtain ⟨d, ms, rfl, hd⟩ := hcase
  have hk : t.kind ∈ switchKinds ∧ t.kind ∉ bracketKinds := by rcases ht with h | h <;> rw [h] <;> decide
  have ht' : Bracketed .statements [t] [] := .sound (.singleton hk.2)
  refine ⟨skipped, c ++ ([t] ++ d), _, by simp, hskipped, ?_, hc.append (ht'.append hd), fun _ => hnext⟩
  cases c with
  | nil => simpa using hk.1
  | cons => simpa using hhead

theorem covers {head : List Token} (h : SwitchInside s (v :: r)) (ht : t.kind = .switchKw)
    (hsubject : Spans head (u :: s)) (hu : u.kind = .lbrace) (hv : v.kind = .rbrace) :
    Covers .statements (t :: head) r := by
  obtain ⟨skipped, c, ls, rfl, hskipped, hhead, hc, -⟩ := h
  obtain ⟨subject, rfl, hbalanced⟩ := hsubject
  exact ⟨_, _, by simp, .switch ht hbalanced hu hskipped hhead hc hv⟩

end SwitchInside

/-! ### Trails -/

/-- Stretches that can stand one behind the other: tokens of some kinds, or a bracketed stretch. -/
inductive Ground where
  | skips (kinds : List TokenKind)
  | covers (region : Region)

namespace Ground

def Rel : Ground → List Token → List Token → Prop
  | skips kinds => Skips kinds
  | covers region => Covers region

def passes : Ground → TokenKind → Bool
  | skips kinds, kind => kinds.contains kind
  | covers _, kind => !bracketKinds.contains kind

theorem refl (g : Ground) (s : List Token) : g.Rel s s := by
  cases g with
  | skips kinds => exact .refl kinds s
  | covers region => exact .refl region s

theorem trans {g : Ground} (h : g.Rel s s₁) (h' : g.Rel s₁ r) : g.Rel s r := by
  cases g with
  | skips => exact .trans h h'
  | covers => exact .trans h h'

theorem token {g : Ground} (h : g.passes t.kind) : g.Rel (t :: r) r := by
  cases g with
  | skips => exact .one rfl (by simpa [passes] using h)
  | covers => exact .token (by simpa [passes] using h)

end Ground

/-- What a rule leaves that starts inside a stretch: behind an opening bracket, behind the colon before a type, behind
the keyword of a declaration with parameters, or behind that of a switch. -/
inductive Trail where
  | ground (g : Ground)
  | shuts (b : Bracket)
  | typed
  | parameters
  | switch

namespace Trail

def Rel : Trail → List Token → List Token → Prop
  | ground g, s, r => g.Rel s r
  | shuts b, s, r => ∃ u s₁, Covers .statements s (u :: s₁) ∧ u.kind = b.closing.kind ∧ Covers .statements s₁ r
  | typed, s, r => ∃ s₁, Skips typeKinds s s₁ ∧ Covers .statements s₁ r
  | parameters, s, r => ∃ u s₁ v s₂, Skips headKinds s (u :: s₁) ∧ u.kind = .lparen ∧
      Covers .parameters s₁ (v :: s₂) ∧ v.kind = .rparen ∧ Covers .statements s₂ r
  | switch, s, r => ∀ t, t.kind = .switchKw → Covers .statements (t :: s) r

/-- The ground before the token that the trail needs. -/
@[reducible] def base : Trail → Ground
  | ground g => g
  | shuts _ => .covers .statements
  | typed => .skips typeKinds
  | parameters => .skips headKinds
  | switch => .skips []

/-- The kinds of the tokens behind which the trail starts. -/
def opens : Trail → List TokenKind
  | ground _ => []
  | shuts b => [b.opening.kind]
  | typed => [.colon]
  | parameters => [.defKw, .dataKw]
  | switch => [.switchKw]

variable {T : Trail}

theorem base_trans (h : T.base.Rel s s₁) (h' : T.Rel s₁ r) : T.Rel s r := by
  cases T with
  | ground => exact Ground.trans h h'
  | shuts =>
    obtain ⟨u, s₂, hinside, hu, hrest⟩ := h'
    exact ⟨u, s₂, .trans h hinside, hu, hrest⟩
  | typed =>
    obtain ⟨s₂, htype, hrest⟩ := h'
    exact ⟨s₂, .trans h htype, hrest⟩
  | parameters =>
    obtain ⟨u, s₂, v, s₃, hhead, hrest⟩ := h'
    exact ⟨u, s₂, v, s₃, .trans h hhead, hrest⟩
  | switch =>
    obtain ⟨skipped, rfl, hskipped⟩ := h
    rw [eq_nil_iff_forall_not_mem.2 fun w hw => not_mem_nil (hskipped w hw)]
    exact h'

theorem trans_covers (hT : T.opens.isEmpty = false) (h : T.Rel s s₁) (h' : Covers .statements s₁ r) : T.Rel s r := by
  cases T with
  | ground => cases hT
  | shuts =>
    obtain ⟨u, s₂, hinside, hu, hrest⟩ := h
    exact ⟨u, s₂, hinside, hu, hrest.trans h'⟩
  | typed =>
    obtain ⟨s₂, htype, hrest⟩ := h
    exact ⟨s₂, htype, hrest.trans h'⟩
  | parameters =>
    obtain ⟨u, s₂, v, s₃, hhead, hu, hparams, hv, hrest⟩ := h
    exact ⟨u, s₂, v, s₃, hhead, hu, hparams, hv, hrest.trans h'⟩
  | switch => exact fun t ht => (h t ht).trans h'

/-- The token before a trail makes it whole. -/
theorem covers (ht : t.kind ∈ T.opens) (h : T.Rel s r) : Covers .statements (t :: s) r := by
  cases T with
  | ground => cases ht
  | shuts =>
    obtain ⟨u, s₁, hinside, hu, hrest⟩ := h
    exact (hinside.enclosed (mem_singleton.1 ht) hu).trans hrest
  | typed =>
    obtain ⟨s₁, htype, hrest⟩ := h
    exact (Covers.typed (mem_singleton.1 ht) htype).trans hrest
  | parameters =>
    obtain ⟨u, s₁, v, s₂, hhead, hu, hparams, hv, hrest⟩ := h
    exact (Covers.parameters (by simpa [opens] using ht) hhead hu hparams hv).trans hrest
  | switch => exact h t (mem_singleton.1 ht)

end Trail

end

/-- From `j` to `k` the cursor goes along the trail, and it moves if a token is needed. -/
structure Tape.Passage {W : TokenKind → String → Prop} (S : Tape W) (T : Trail) (needs : Prop) (j k : Nat) : Prop where
  le : j ≤ k
  lt : needs → j < k
  trail : T.Rel (restAt S.tokens j) (restAt S.tokens k)

namespace Tape.Passage

variable {W : TokenKind → String → Prop} {S : Tape W} {T : Trail} {g : Ground} {n n' : Prop} {i j k : Nat} {t : Token}

theorem stay (hn : ¬n) (j : Nat) : S.Passage (.ground g) n j j := ⟨Nat.le_refl j, fun h => absurd h hn, Ground.refl g _⟩

theorem step (ht : S.tokens[j]? = some t) (hk : g.passes t.kind) : S.Passage (.ground g) n j (j + 1) :=
  ⟨Nat.le_succ j, fun _ => Nat.lt_succ_self j, restAt_eq_cons ht ▸ Ground.token hk⟩

theorem trans (h : S.Passage (.ground T.base) n i j) (h' : S.Passage T n' j k) : S.Passage T n' i k :=
  ⟨Nat.le_trans h.le h'.le, fun hn => Nat.lt_of_le_of_lt h.le (h'.lt hn), Trail.base_trans h.trail h'.trail⟩

theorem idle (h : S.Passage T n i j) : S.Passage T False i j := ⟨h.le, False.elim, h.trail⟩

theorem moved (h : S.Passage T n' i j) (hij : i < j) : S.Passage T n i j := ⟨h.le, fun _ => hij, h.trail⟩

theorem behind (h : S.Passage (.ground T.base) True i j) (h' : S.Passage T n' j k) : S.Passage T n i k :=
  (h.trans h').moved (Nat.lt_of_lt_of_le (h.lt trivial) h'.le)

theorem opened (ht : S.tokens[j]? = some t) (hk : T.opens.contains t.kind) (h : S.Passage T n' (j + 1) k) :
    S.Passage (.ground (.covers .statements)) n j k :=
  ⟨Nat.le_of_succ_le h.le, fun _ => h.le, restAt_eq_cons ht ▸ Trail.covers (by simpa using hk) h.trail⟩

end Tape.Passage

namespace Parse

section

variable {W : TokenKind → String → Prop} {S : Tape W} {α β σ : Type} {i j : Nat}

/-- From every cursor from `i` on the rule goes along the trail.  It takes a token if its value needs one, and the
value has the property. -/
def Leads (S : Tape W) (T : Trail) (i : Nat) (p : Parse α) (needs P : α → Prop) : Prop :=
  ∀ j, i ≤ j → Runs S p j fun a k => S.Passage T (needs a) j k ∧ P a

abbrev Goes (S : Tape W) (T : Trail) (i : Nat) (p : Parse α) (P : α → Prop) : Prop := Leads S T i p (fun _ => False) P

abbrev Gives (S : Tape W) (i : Nat) (p : Parse α) (P : α → Prop) : Prop :=
  Goes S (.ground (.covers .statements)) i p P

abbrev Takes (S : Tape W) (i : Nat) (p : Parse α) (P : α → Prop) : Prop :=
  Leads S (.ground (.covers .statements)) i p (fun _ => True) P

/-- A round of a loop: it takes a token and keeps the invariant, or it is the last one. -/
abbrev Turns (S : Tape W) (g : Ground) (i : Nat) (p : Parse (σ ⊕ β)) (inv : σ → Prop) (P : β → Prop) : Prop :=
  Leads S (.ground g) i p (Sum.elim (fun _ => True) fun _ => False) (Sum.elim inv P)

variable {T : Trail} {g : Ground} {b : Bracket} {p q : Parse α} {f : α → Parse β} {h : Token → Parse α}
  {needs P P' : α → Prop} {needs₂ Q : β → Prop} {step : σ → Parse (σ ⊕ β)} {inv : σ → Prop} {s : σ} {a : α} {n : Prop}
  {test : Parse Bool} {kind : TokenKind} {kinds : List TokenKind} {reason complaint : String} {radius : Int}

theorem Leads.later (hp : Leads S T i p needs P) (hij : i ≤ j) : Leads S T j p needs P :=
  fun k hk => hp k (Nat.le_trans hij hk)

theorem Leads.imp (hp : Leads S T i p needs P) (himp : ∀ a, P a → P' a) : Leads S T i p needs P' :=
  fun j hj => runs_mono (hp j hj) fun a _ ha => ⟨ha.1, himp a ha.2⟩

theorem Leads.gives (hp : Leads S T i p needs P) : Goes S T i p P :=
  fun j hj => runs_mono (hp j hj) fun _ _ ha => ⟨ha.1.idle, ha.2⟩

theorem Leads.covers (hp : Leads S (.ground (.skips kinds)) i p needs P)
    (hkinds : ∀ k ∈ kinds, k ∉ bracketKinds) : Leads S (.ground (.covers region)) i p needs P :=
  fun j hj => runs_mono (hp j hj) fun _ _ ha => ⟨⟨ha.1.le, ha.1.lt, .of_spans (.of_skips ha.1.trail hkinds)⟩, ha.2⟩

theorem Leads.runs_from (hp : Leads S T i p needs P) (hij : i ≤ j) (hjk : S.Passage (.ground T.base) n j k) :
    Runs S p k fun a l => S.Passage T (needs a) j l ∧ P a :=
  runs_mono (hp k (Nat.le_trans hij hjk.le)) fun _ _ ha => ⟨hjk.trans ha.1, ha.2⟩

theorem Leads.runs_behind (hp : Goes S T i p P) (hik : i ≤ k) (hjk : S.Passage (.ground T.base) True j k) :
    Runs S p k fun a l => S.Passage T (needs a) j l ∧ P a :=
  runs_mono (hp k hik) fun _ _ ha => ⟨hjk.behind ha.1, ha.2⟩

theorem Leads.runs_opened (hp : Goes S T i p P) (hij : i ≤ j + 1) (ht : S.tokens[j]? = some t)
    (hk : T.opens.contains t.kind) :
    Runs S p (j + 1) fun a l => S.Passage (.ground (.covers .statements)) (needs a) j l ∧ P a :=
  runs_mono (hp (j + 1) hij) fun _ _ ha => ⟨ha.1.opened ht hk, ha.2⟩

theorem leads_pure (hneeds : ¬needs a) (h : P a) : Leads S (.ground g) i (pure a) needs P :=
  fun j _ => runs_pure ⟨.stay hneeds j, h⟩

theorem gives_pure (h : P a) : Goes S (.ground g) i (pure a) P := leads_pure id h

theorem leads_reject : Leads S T i (reject reason radius) needs P := fun _ _ => runs_reject

theorem leads_reject_bind : Leads S T i (reject reason radius >>= f) needs₂ Q := fun _ _ => runs_reject_bind

/-- A sequence of two rules, of which the second one takes a token if one is needed. -/
theorem leads_bind (hp : Leads S (.ground T.base) i p needs P) (hf : ∀ a, P a → Leads S T i (f a) needs₂ Q) :
    Leads S T i (p >>= f) needs₂ Q :=
  fun j hj => runs_bind (hp j hj) fun a _ ha => (hf a ha.2).runs_from hj ha.1

theorem takes_bind (hp : Leads S (.ground T.base) i p (fun _ => True) P) (hf : ∀ a, P a → Goes S T (i + 1) (f a) Q) :
    Leads S T i (p >>= f) needs₂ Q :=
  fun j hj => runs_bind (hp j hj) fun a _ ha =>
    (hf a ha.2).runs_behind (Nat.lt_of_le_of_lt hj (ha.1.lt trivial)) ha.1

theorem leads_after (hp : Leads S (.ground T.base) i p needs P) (hf : ∀ a, Leads S T i (f a) needs₂ Q) :
    Leads S T i (p >>= f) needs₂ Q := leads_bind hp fun a _ => hf a

/-- Behind the end of a trail there may be more statements. -/
theorem leads_then (hT : T.opens.isEmpty = false) (hp : Goes S T i p P) (hf : ∀ a, P a → Gives S i (f a) Q) :
    Goes S T i (p >>= f) Q := by
  refine fun j hj => runs_bind (hp j hj) fun a k ha => runs_mono (hf a ha.2 k (Nat.le_trans hj ha.1.le)) ?_
  rintro b l ⟨hkl, hb⟩
  exact ⟨⟨Nat.le_trans ha.1.le hkl.le, False.elim, Trail.trans_covers hT ha.1.trail hkl.trail⟩, hb⟩

theorem leads_ite {c : Prop} [Decidable c] (hp : c → Leads S T i p needs P) (hq : ¬c → Leads S T i q needs P) :
    Leads S T i (if c then p else q) needs P := by
  split
  · next hc => exact hp hc
  · next hc => exact hq hc

theorem leads_ifTest {needs' P' : Bool → Prop} (htest : Leads S (.ground T.base) i test needs' P')
    (hp : Leads S T i p needs P) (hq : Leads S T i q needs P) :
    Leads S T i (test >>= fun b => if b then p else q) needs P :=
  leads_after htest fun _ => leads_ite (fun _ => hp) fun _ => hq

theorem leads_cursor {f : Int → Parse β}
    (hf : ∀ j : Nat, i ≤ j → S.Holds j → Runs S (f j) j fun b k => S.Passage T (needs₂ b) j k ∧ Q b) :
    Leads S T i (cursor >>= f) needs₂ Q := fun j hj hold => hf j hj hold hold

theorem leads_budget {f : Nat → Parse β} (hf : ∀ j n, i ≤ j → S.Allows j n → Leads S T j (f n) needs₂ Q) :
    Leads S T i (budget >>= f) needs₂ Q := fun j hj => hf j _ hj (S.allows_budget j) j (Nat.le_refl j)

theorem leads_exhausted (h : S.Allows i 0) : Leads S T i (fail .exhausted) needs P :=
  fun j hj => runs_exhausted fun e he => by have := h e he; omega

/-- What every round of a loop keeps holds at its end. -/
theorem gives_iterate (inv : σ → Prop) (hs : inv s) (hstep : ∀ s, inv s → Turns S g i (step s) inv Q) :
    Goes S (.ground g) i (iterate step s) Q := by
  intro j hj
  refine runs_iterate (fun s m => S.Passage (.ground g) False j m ∧ inv s) ⟨.stay id j, hs⟩ fun s m hm => ?_
  refine runs_mono (hstep s hm.2 m (Nat.le_trans hj hm.1.le)) ?_
  rintro (s' | b) k ⟨hmk, hr⟩
  · exact ⟨fun _ _ => hmk.lt trivial, (hm.1.trans hmk).idle, hr⟩
  · exact ⟨hm.1.trans hmk, hr⟩

theorem forall_mem_found {items : List α} (h : ∀ a ∈ items, P a) : ∀ a ∈ items.reverse, P a :=
  fun a ha => h a (mem_reverse.1 ha)

theorem leads_loop (inv : σ → Prop) (P : α → Prop) {step : σ → Parse (σ ⊕ α)} (hs : inv s)
    (hstep : ∀ s, inv s → Turns S T.base i (step s) inv P) (hf : ∀ a, P a → Leads S T i (f a) needs₂ Q) :
    Leads S T i (iterate step s >>= f) needs₂ Q := leads_bind (gives_iterate inv hs hstep) hf

/-! ### Tokens on the way -/

theorem gives_idle {D : α → Prop} (hp : ∀ j, Runs S p j fun a k => j = k ∧ D a) : Goes S (.ground g) i p D := by
  refine fun j _ => runs_mono (hp j) ?_
  rintro a _ ⟨rfl, ha⟩
  exact ⟨.stay id j, ha⟩

theorem gives_peek : Goes S (.ground g) i peek fun _ => True :=
  gives_idle fun _ => runs_mono runs_peek fun _ _ h => ⟨h.1, trivial⟩

theorem gives_isAtEnd : Goes S (.ground g) i isAtEnd fun _ => True :=
  gives_idle fun _ => runs_mono runs_isAtEnd fun _ _ h => ⟨h.1, trivial⟩

theorem gives_check : Goes S (.ground g) i (check kinds) fun _ => True :=
  gives_idle fun _ => runs_mono (runs_check kinds) fun _ _ h => ⟨h.1, trivial⟩

theorem passes_of_mem (hkinds : kinds.all g.passes) (hk : kind ∈ kinds) : g.passes kind :=
  all_eq_true.1 hkinds kind hk

theorem gives_accept (hkinds : kinds.all g.passes) : Goes S (.ground g) i (accept kinds) fun _ => True := by
  intro j _
  refine runs_mono (runs_accept kinds) ?_
  rintro b _ (⟨-, t, ht, -, hk, rfl⟩ | ⟨-, -, rfl⟩)
  · exact ⟨.step ht (passes_of_mem hkinds hk), trivial⟩
  · exact ⟨.stay id j, trivial⟩

theorem leads_ifAccept (hkinds : kinds.all T.base.passes) (hp : Goes S T (i + 1) p P)
    (hq : Leads S T i q needs P) : Leads S T i (accept kinds >>= fun b => if b then p else q) needs P :=
  fun j hj => runs_ifAccept (fun _ ht _ hk => hp.runs_behind (by omega) (.step ht (passes_of_mem hkinds hk)))
    fun _ => hq j hj

theorem leads_ifBind {f : α → Parse β} (hkinds : kinds.all T.base.passes) (hp : Goes S (.ground T.base) i p P)
    (ha : P a) (hf : ∀ a, P a → Leads S T i (f a) needs₂ Q) :
    Leads S T i (accept kinds >>= fun b => if b then p >>= f else pure a >>= f) needs₂ Q :=
  leads_ifTest (gives_accept hkinds) (leads_bind hp hf) (leads_bind (gives_pure ha) hf)

theorem leads_checkAdvance (hkinds : kinds.all T.base.passes)
    (hh : ∀ t ∈ S.tokens, t.kind ∈ kinds → Goes S T (i + 1) (h t) P) (hq : Leads S T i q needs P) :
    Leads S T i (check kinds >>= fun b => if b then advance >>= h else q) needs P := by
  refine fun j hj => runs_ifCheck (fun t ht hne hk => runs_step_bind ht hne ?_) fun _ => hq j hj
  exact (hh t (Array.mem_of_getElem? ht) hk).runs_behind (by omega) (.step ht (passes_of_mem hkinds hk))

theorem takes_expect (hk : g.passes kind) :
    Leads S (.ground g) i (expect kind complaint) (fun _ => True) fun t => t ∈ S.tokens ∧ t.kind = kind := by
  refine fun j _ => runs_mono (runs_expect kind complaint) ?_
  rintro t _ ⟨ht, rfl, rfl⟩
  exact ⟨.step ht hk, Array.mem_of_getElem? ht, rfl⟩

theorem takes_name (hk : g.passes .identifier) :
    Leads S (.ground g) i (expect .identifier complaint) (fun _ => True) fun t => W .identifier t.text :=
  (takes_expect hk).imp fun _ h => Tape.known_text h.1 h.2

theorem gives_skipNewlines (hk : [.newline].all g.passes) : Goes S (.ground g) i skipNewlines fun _ => True :=
  gives_iterate (fun _ => True) trivial fun _ _ => leads_ifAccept hk (gives_pure trivial) (leads_pure id trivial)

/-! ### Tokens that open and close trails -/

theorem leads_opened (T : Trail) (hk : T.opens.contains kind) (hp : Goes S T i p P) :
    Leads S (.ground (.covers .statements)) i (expect kind complaint >>= fun _ => p) needs P :=
  fun _ hj => runs_expect_bind fun _ ht ht' => hp.runs_opened (by omega) ht (ht' ▸ hk)

theorem leads_ifOpened (T : Trail) (hk : T.opens.contains kind) (hp : Goes S T (i + 1) p P)
    (hq : Leads S (.ground (.covers .statements)) i q needs P) :
    Leads S (.ground (.covers .statements)) i (accept [kind] >>= fun b => if b then p else q) needs P :=
  fun j hj => runs_ifTaken (fun _ ht ht' => hp.runs_opened (by omega) ht (ht' ▸ hk)) (hq j hj)

theorem leads_checkOpened (T : Trail) (hk : T.opens.contains kind) (hp : Goes S T (i + 1) p P)
    (hq : Leads S (.ground (.covers .statements)) i q needs P) :
    Leads S (.ground (.covers .statements)) i (check [kind] >>= fun b => if b then advance >>= fun _ => p else q)
      needs P :=
  fun j hj => runs_ifStep (fun _ ht ht' => hp.runs_opened (by omega) ht (ht' ▸ hk)) (hq j hj)

theorem leads_typed (hp : Goes S (.ground (.covers .statements)) i p P) : Goes S .typed i p P :=
  fun j hj => runs_mono (hp j hj) fun _ _ ha => ⟨⟨ha.1.le, False.elim, _, .refl _ _, ha.1.trail⟩, ha.2⟩

theorem leads_shut (hp : Gives S i p P) : Goes S (.shuts b) i (expect b.closing.kind complaint >>= fun _ => p) P := by
  refine fun j hj => runs_expect_bind fun u hu hk => runs_mono (hp (j + 1) (by omega)) ?_
  rintro a k ⟨hjk, ha⟩
  exact ⟨⟨Nat.le_of_succ_le hjk.le, False.elim, u, _, restAt_eq_cons hu ▸ .refl _ _, hk, hjk.trail⟩, ha⟩

end

end Parse

end BraceLang
