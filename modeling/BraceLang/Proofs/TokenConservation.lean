import BraceLang.Proofs.Appending
import BraceLang.Proofs.ShownTokens

/-!
# Expressions keep their tokens

No operator should lack an operand, and no token should be lost.
-/

namespace BraceLang

open List

variable {n : Node} {t : Token} {build : Node → Node → Node} {ts s r : List Token}

/-! ### Operands -/

namespace Node

/-- Whether the operands of a node are there; the bounds of a slice and the condition of a comprehension need not be. -/
def hasOperands : Node → Bool
  | unary _ operand => operand.isPresent
  | binary _ left right | logical _ left right => left.isPresent && right.isPresent
  | assignment target value .. => target.isPresent && value.isPresent
  | member object _ => object.isPresent
  | call callee arguments => callee.isPresent && arguments.all isPresent
  | subscript object index => object.isPresent && index.isPresent
  | collection items _ => items.all isPresent
  | argument _ value => value.isPresent
  | entry key value => key.isPresent && value.isPresent
  | comprehension element target source .. => element.isPresent && target.isPresent && source.isPresent
  | _ => true

def Complete (n : Node) : Prop := n.Everywhere fun m => m.hasOperands = true

instance (n : Node) : Decidable n.Complete := inferInstanceAs (Decidable (n.Everywhere _))

theorem complete_iff (ps : List Node) (hparts : n.parts = ps := by rfl) (hn : n.isPresent := by rfl) :
    n.Complete ↔ n.hasOperands ∧ ∀ c ∈ ps, c.Complete := by
  rw [Complete, everywhere_iff, hparts]
  simp only [hn, forall_const]
  rfl

theorem complete_missing : missing.Complete := everywhere_iff.2 ⟨nofun, forall_mem_nil _⟩

theorem complete_leaf (hn : n.isPresent := by rfl) (hparts : n.parts = [] := by rfl)
    (hoperands : n.hasOperands := by rfl) : n.Complete :=
  (complete_iff [] hparts hn).2 ⟨hoperands, forall_mem_nil _⟩

end Node

/-- The nodes of a part show the tokens that are swept for it, and they are complete exactly if there is no gap.  Parts
that start with a token of their own may follow an operand, the others do not. -/
def Part.Kept : Part → List Token → List Token → Prop
  | .expression firm n, s, r => ∃ ts ok b, Sweeps .start s ts ok ⟨b, true⟩ r ∧ Shows n ts ∧ (n.Complete ↔ ok) ∧
      (firm = true → b)
  | .operand n, s, r => ∃ ts ok b, Sweeps .start s ts ok ⟨b, n.isPresent⟩ r ∧ Shows n ts ∧ (n.Complete ↔ ok)
  | .item _ n, s, r | .index n, s, r | .clauses n, s, r => ∃ ts ok y, Sweeps .start s ts ok y r ∧ Shows n ts ∧
      (n.Complete ↔ ok)
  | .items _ ns, s, r => ∃ ts ok y, Sweeps .start s ts ok y r ∧ ShowsAll ns ts ∧ ((∀ n ∈ ns, n.Complete) ↔ ok)
  | .group _ _ ns, s, r => ∀ x, ∃ ts ok, Sweeps x s ts ok .done r ∧ ShowsAll ns ts ∧
    ((∀ n ∈ ns, n.Complete) ↔ ok)
  | .element n key, s, r => ∃ ks ts ok y, Sweeps .start s (ks ++ ts) ok y r ∧ Shows key ks ∧ Shows n ts ∧
      (n.Complete ∧ key.Complete ↔ ok)
  | .condition n, s, r => ∀ x, ∃ ts ok y, Sweeps x s ts ok y r ∧ (n.Complete ↔ ok) ∧
      (n = .missing ∧ ts = [] ∨ ∃ t cs, ts = t :: cs ∧ t.kind = .ifKw ∧ Shows n cs)

theorem IsMark.restarting (h : IsMark t op) : t.kind ∈ restartingKinds ∧ t.kind ∉ silentKinds := by
  rcases h with ⟨hk, -⟩ | ⟨text, hk, -⟩
  · rw [hk]; decide
  · have hmarks : ∀ mark ∈ Parse.compoundMarks, mark.1 ∈ restartingKinds ∧ mark.1 ∉ silentKinds := by decide
    exact hmarks _ hk

theorem OperatorTokens.complete_iff (h : OperatorTokens build ts) : (build left right).Complete ↔
      (left.isPresent = true ∧ right.isPresent) ∧ left.Complete ∧ right.Complete := by
  cases h <;> rw [Node.complete_iff [left, right]] <;> simp [Node.hasOperands]

theorem Part.kept_leaf (hs : s = t :: r) (ht : t.kind = kind) (hshows : Shows n [t]) (hn : n.Complete)
    (hkind : kind ∈ operandEnds ∧ kind ∉ silentKinds := by decide) : (Part.expression true n).Kept s r := by
  have hsweep := Sweeps.finish (x := .start) hs (ht ▸ hkind.1)
  rw [if_pos (by simpa [Token.isShown, ht] using hkind.2)] at hsweep
  exact ⟨_, _, _, hsweep, hshows, iff_of_true hn rfl, fun _ => rfl⟩

theorem Consumes.kept (h : Consumes part s r) : part.Kept s r := by
  induction h with
  | identifier hs hk => exact Part.kept_leaf hs hk (.identifier hk) Node.complete_leaf
  | @truth _ t _ b hs hk => exact Part.kept_leaf hs hk (.truth hk) Node.complete_leaf (by cases b <;> decide)
  | nothing hs hk => exact Part.kept_leaf hs hk (.nothing hk) Node.complete_leaf
  | literal hs hk =>
    have hkinds : ∀ p ∈ Parse.literalKinds, p.1 ∈ operandEnds ∧ p.1 ∉ silentKinds := by decide
    exact Part.kept_leaf hs rfl (.literal hk) Node.complete_leaf (hkinds _ hk)
  | @collection _ _ items _ _ _ h _ ih =>
    obtain ⟨ts, ok, hsweep, hshows, hok⟩ := ih .start
    refine ⟨ts, ok, true, hsweep, .collection hshows, ?_, id⟩
    rw [← hok, Node.complete_iff (items ++ [])]
    simp only [Node.hasOperands, all_eq_true, append_nil]
    exact and_iff_right h.isPresent_of_mem
  | parenthesized hs ht _ hs₂ hu ih =>
    obtain ⟨ts, ok, b, hsweep, hshows, hok, -⟩ := ih
    exact ⟨ts, ok, true, hsweep.enclosed (k := .round) hs ht hs₂ hu, hshows, hok, id⟩
  | comprehension hs ht _ hs₂ hu ih =>
    obtain ⟨ts, ok, y, hsweep, hshows, hok⟩ := ih
    exact ⟨ts, ok, true, hsweep.enclosed hs ht hs₂ hu, hshows, hok, id⟩
  | @member object _ _ t _ u r h hs₁ ht hs₂ hu ih =>
    obtain ⟨ts, ok, b, hsweep, hshows, hok, -⟩ := ih
    refine ⟨_, _, true, hsweep.divided hs₁ ht (.name hs₂ hu), .member hshows hu, ?_, id⟩
    rw [Bool.and_true, ← hok, Node.complete_iff [object]]
    simp [Node.hasOperands, h.isPresent]
  | @call callee _ _ arguments _ h harguments ih iharguments =>
    obtain ⟨ts, ok, b, hsweep, hshows, hok, -⟩ := ih
    obtain ⟨us, ok', hsweep', hshows', hok'⟩ := iharguments ⟨b, true⟩
    refine ⟨_, _, true, hsweep.trans hsweep', .call hshows hshows', ?_, id⟩
    rw [Bool.and_eq_true, ← hok, ← hok', Node.complete_iff (callee :: (arguments ++ []))]
    simp only [Node.hasOperands, h.isPresent, Bool.true_and, all_eq_true, append_nil, forall_mem_cons]
    exact and_iff_right harguments.isPresent_of_mem
  | @subscript object _ _ t _ index _ u r h hs₁ ht hindex hs₃ hu ih ihindex =>
    obtain ⟨ts, ok, b, hsweep, hshows, hok, -⟩ := ih
    obtain ⟨us, ok', y, hsweep', hshows', hok'⟩ := ihindex
    have hpresent := hindex.isPresent_of_mem index (mem_singleton_self _)
    refine ⟨_, _, true, hsweep.trans (hsweep'.enclosed (k := .square) hs₁ ht hs₃ hu), .subscript hshows hshows', ?_, id⟩
    rw [Bool.and_eq_true, ← hok, ← hok', Node.complete_iff [object, index]]
    simp [Node.hasOperands, h.isPresent, hpresent]
  | @unary s' t s₁ firm operand r hs hk h ih =>
    obtain ⟨ts, ok, b, hsweep, hshows, hok, hfirm⟩ := ih
    have hsign : Sweeps .start s' [t] true .start s₁ := by
      rcases hk with hk | hk
      · exact .negation hs hk (.inl rfl)
      · have hminus := Sweeps.restart (x := .start) hs (by rw [hk]; decide)
        rwa [if_pos (by simp [Token.isShown, hk, silentKinds])] at hminus
    refine ⟨_, _, b, hsign.trans hsweep, .unary hk hshows, ?_, hfirm⟩
    rw [Bool.true_and, ← hok, Node.complete_iff [operand]]
    simp [Node.hasOperands, h.isPresent]
  | @operation left _ _ build ts _ firm right r hleft hop hs₁ hfirst hright ihleft ihright =>
    obtain ⟨us, ok, b, hsweep, hshows, hok⟩ := ihleft
    obtain ⟨vs, ok', b', hsweep', hshows', hok', hfirm⟩ := ihright
    have hmissing : left.isPresent = false → left = .missing := by
      intro h
      cases left with
      | missing => rfl
      | _ => cases h
    have hoperator := hop.sweeps (x := ⟨b, left.isPresent⟩) hs₁ fun h => hfirst (hmissing h)
    refine ⟨_, _, b', (hsweep.trans hoperator).trans hsweep', .operation hshows hop hshows', ?_, hfirm⟩
    rw [hop.complete_iff, hok, hok']
    simp only [Bool.and_eq_true, hright.isPresent, and_true]
    exact ⟨fun h => ⟨⟨h.2.1, h.1⟩, h.2.2⟩, fun h => ⟨h.1.2, h.1.1, h.2⟩⟩
  | @assignment firm target _ _ t _ op firm' value r htarget hs₁ hop hvalue ihtarget ihvalue =>
    obtain ⟨ts, ok, b, hsweep, hshows, hok, -⟩ := ihtarget
    obtain ⟨us, ok', b', hsweep', hshows', hok', hfirm⟩ := ihvalue
    refine ⟨_, _, b', hsweep.marked hs₁ rfl hsweep' hop.restarting, .assignment hshows hop hshows', ?_, hfirm⟩
    rw [Bool.and_eq_true, ← hok, ← hok', Node.complete_iff [target, value]]
    simp [Node.hasOperands, htarget.isPresent, hvalue.isPresent]
  | lines _ hlines ih =>
    obtain ⟨ts, ok, b, hsweep, hshows, hok, -⟩ := ih
    obtain ⟨⟨b', filled⟩, hskipped, -, hfilled⟩ := Sweeps.skipped (x := ⟨b, true⟩) hlines
    obtain rfl : filled := hfilled (by simp)
    have hboth := hsweep.trans hskipped
    rw [append_nil, Bool.and_true] at hboth
    exact ⟨ts, ok, b', hboth, hshows, hok, fun h => absurd h Bool.false_ne_true⟩
  | stray _ hs₁ hk hnext ih =>
    obtain ⟨ts, ok, b, hsweep, hshows, hok, hfirm⟩ := ih
    have hboth := hsweep.trans (.stray hs₁ hk (hfirm rfl) hnext)
    rw [append_nil, Bool.and_true] at hboth
    exact ⟨ts, ok, false, hboth, hshows, hok, fun h => absurd h Bool.false_ne_true⟩
  | absent hlines =>
    obtain ⟨y, hskipped, hy, -⟩ := Sweeps.skipped (x := .start) hlines
    rw [hy rfl] at hskipped
    exact ⟨[], true, false, hskipped, .missing, iff_of_true Node.complete_missing rfl⟩
  | present h ih =>
    obtain ⟨ts, ok, b, hsweep, hshows, hok, -⟩ := ih
    exact ⟨ts, ok, b, h.isPresent.symm ▸ hsweep, hshows, hok⟩
  | plainItem _ _ ih | plainIndex _ ih =>
    obtain ⟨ts, ok, b, hsweep, hshows, hok, -⟩ := ih
    exact ⟨ts, ok, _, hsweep, hshows, hok⟩
  | @namedItem _ t _ u _ _ value r hs ht hs₁ hu h ih =>
    obtain ⟨ts, ok, b, hsweep, hshows, hok, -⟩ := ih
    have hname := Sweeps.name (x := .start) hs ht
    refine ⟨_, _, _, hname.marked hs₁ hu hsweep, .argument ht hu hshows, ?_⟩
    rw [Bool.true_and, ← hok, Node.complete_iff [value]]
    simp [Node.hasOperands, h.isPresent]
  | @entryItem _ key _ _ t _ _ value _ hkey hs₁ ht hvalue ihkey ihvalue =>
    obtain ⟨ts, ok, b, hsweep, hshows, hok, -⟩ := ihkey
    obtain ⟨us, ok', b', hsweep', hshows', hok', -⟩ := ihvalue
    refine ⟨_, _, _, hsweep.divided hs₁ ht hsweep', .entry hshows hshows', ?_⟩
    rw [Bool.and_eq_true, ← hok, ← hok', Node.complete_iff [key, value]]
    simp [Node.hasOperands, hkey.isPresent, hvalue.isPresent]
  | noItems => exact ⟨[], true, .start, .refl _ _, .nil, iff_of_true (forall_mem_nil _) rfl⟩
  | oneItem _ ih =>
    obtain ⟨ts, ok, y, hsweep, hshows, hok⟩ := ih
    exact ⟨ts, ok, y, hsweep, .snoc .nil hshows, List.forall_mem_singleton.trans hok⟩
  | moreItems _ hs₁ ht hlines _ ih ihitem =>
    obtain ⟨ts, ok, y, hsweep, hshows, hok⟩ := ih
    obtain ⟨us, ok', y', hsweep', hshows', hok'⟩ := ihitem
    obtain ⟨z, hskipped, hz, -⟩ := Sweeps.skipped (x := .start) hlines
    rw [hz rfl] at hskipped
    refine ⟨_, _, y', hsweep.divided hs₁ ht (hskipped.trans hsweep'), .snoc hshows hshows', ?_⟩
    rw [Bool.true_and, Bool.and_eq_true, ← hok, ← hok', forall_mem_append, forall_mem_singleton]
  | group hs ht hlines _ hend hs₄ hu ih =>
    intro x
    obtain ⟨ts, ok, y, hsweep, hshows, hok⟩ := ih
    obtain ⟨z, hskipped, hz, -⟩ := Sweeps.skipped (x := .start) hlines
    obtain ⟨z', hskipped', -, -⟩ := Sweeps.skipped (x := y) hend
    rw [hz rfl] at hskipped
    have hinside := hskipped.trans (hsweep.trans hskipped')
    rw [nil_append, append_nil, Bool.true_and, Bool.and_true] at hinside
    exact ⟨ts, ok, hinside.enclosed hs ht hs₄ hu, hshows, hok⟩
  | @range start _ _ t _ stop _ _ hs₁ ht _ ihstart ihstop =>
    obtain ⟨ts, ok, b, hsweep, hshows, hok⟩ := ihstart
    obtain ⟨us, ok', b', hsweep', hshows', hok'⟩ := ihstop
    have hslice := Shows.slice hshows hshows' .missing
    rw [append_nil] at hslice
    refine ⟨_, _, _, hsweep.divided hs₁ ht hsweep', hslice, ?_⟩
    rw [Bool.and_eq_true, ← hok, ← hok', Node.complete_iff [start, stop, .missing]]
    simp [Node.hasOperands, Node.complete_missing]
  | @stepped start _ _ t _ stop _ u _ step r _ hs₁ ht _ hs₃ hu _ ihstart ihstop ihstep =>
    obtain ⟨ts, ok, b, hsweep, hshows, hok⟩ := ihstart
    obtain ⟨us, ok', b', hsweep', hshows', hok'⟩ := ihstop
    obtain ⟨vs, ok'', b'', hsweep'', hshows'', hok''⟩ := ihstep
    refine ⟨_, _, _, (hsweep.divided hs₁ ht hsweep').divided hs₃ hu hsweep'',
      .slice hshows hshows' hshows'', ?_⟩
    rw [Bool.and_eq_true, Bool.and_eq_true, ← hok, ← hok', ← hok'', Node.complete_iff [start, stop, step]]
    simp [Node.hasOperands, and_assoc]
  | plainElement _ ih =>
    obtain ⟨ts, ok, b, hsweep, hshows, hok, -⟩ := ih
    exact ⟨[], ts, ok, _, hsweep, .missing, hshows, (and_iff_left Node.complete_missing).trans hok⟩
  | keyedElement _ hs₁ ht _ ihkey ih =>
    obtain ⟨ks, ok, b, hsweep, hshows, hok, -⟩ := ihkey
    obtain ⟨ts, ok', b', hsweep', hshows', hok', -⟩ := ih
    refine ⟨ks, ts, _, _, hsweep.divided hs₁ ht hsweep', hshows, hshows', ?_⟩
    rw [Bool.and_eq_true, ← hok, ← hok', and_comm]
  | noCondition =>
    exact fun x => ⟨[], true, x, .refl x _, iff_of_true Node.complete_missing rfl, .inl ⟨rfl, rfl⟩⟩
  | condition hs ht _ ih =>
    intro x
    obtain ⟨ts, ok, b, hsweep, hshows, hok, -⟩ := ih
    have hmark := (Sweeps.refl x _).marked hs ht hsweep
    exact ⟨_, _, _, hmark, hok, .inr ⟨_, ts, rfl, ht, hshows⟩⟩
  | @clauses element key _ _ t _ _ target _ u _ _ source _ condition r kind helement hs₁ ht htarget hs₃ hu hsource _ _
    ihelement ihtarget ihsource ihcondition =>
    obtain ⟨ks, es, ok₁, y, hsweep₁, hkey, hshows₁, hok₁⟩ := ihelement
    obtain ⟨ts, ok₂, b₂, hsweep₂, hshows₂, hok₂, -⟩ := ihtarget
    obtain ⟨ss, ok₃, b₃, hsweep₃, hshows₃, hok₃, -⟩ := ihsource
    obtain ⟨cs, ok₄, z, hsweep₄, hok₄, hcs⟩ := ihcondition ⟨b₃, true⟩
    have hpresent := helement.isPresent_of_mem element (mem_singleton_self _)
    have hin := Sweeps.join (x := ⟨b₂, true⟩) hs₃ (by rw [hu]; decide)
    have hclauses := hsweep₁.marked hs₁ ht hsweep₂
    refine ⟨_, _, z, hclauses.trans (hin.trans (hsweep₃.trans hsweep₄)), ?_, ?_⟩
    · rcases hcs with ⟨rfl, rfl⟩ | ⟨v, vs, rfl, hv, hcondition⟩
      · have hshows : Shows (.comprehension element target source .missing kind key) _ :=
          .comprehension hkey hshows₁ ht hshows₂ hu hshows₃
        simpa using hshows
      · have hshows : Shows (.comprehension element target source condition kind key) _ :=
          .selection hkey hshows₁ ht hshows₂ hu hshows₃ hv hcondition
        simpa using hshows
    · rw [Node.complete_iff [element, target, source, condition, key]]
      simp only [Bool.and_eq_true, true_and, ← hok₁, ← hok₂, ← hok₃, ← hok₄, Node.hasOperands, hpresent,
        htarget.isPresent, hsource.isPresent, Bool.and_self, forall_mem_cons, not_mem_nil, false_implies,
        implies_true, and_true]
      exact ⟨fun h => ⟨⟨⟨h.1, h.2.2.2.2⟩, h.2.1⟩, h.2.2.1, h.2.2.2.1⟩,
        fun h => ⟨h.1.1.1, h.1.2, h.2.1, h.2.2, h.1.1.2⟩⟩

/-! ### Whole expressions -/

/-- The tokens read for an expression, from the index `i` up to `m`: without the stray negations they are what the
expression shows, and every operator has its operands exactly if there is no gap. -/
theorem tokens_of_expression {tokens : Array Token} {i : Nat} {e : Node} {j : Int}
    (h : Parse.expression? tokens i = .ok e j) : ∃ (m : Nat) (taken : List Token), j = m ∧
      restAt tokens i = taken ++ restAt tokens m ∧
      Shows e ((withoutStrays false taken (restAt tokens m)).filter Token.isShown) ∧
      (e.Complete ↔ gapless false taken) := by
  obtain ⟨m, hm, hread⟩ := Parse.Runs.value (S := .bare tokens) Parse.runs_expression? rfl h
  obtain ⟨ts, ok, b, ⟨taken, htaken, rfl, rfl, -⟩, hshows, hcomplete⟩ := hread.kept
  exact ⟨m, taken, hm, htaken, hshows, hcomplete⟩

def lexeme (w : Word) : Token := ⟨w.kind, some w.text, 1, 0, none⟩

/-- `-a not in f(b,` and on the next line `k=1) or c[1:]`. -/
theorem tokens_of_expression_membership :
    let tokens := ([⟨.minus, "-"⟩, ⟨.identifier, "a"⟩, ⟨.notKw, "not"⟩, ⟨.inKw, "in"⟩, ⟨.identifier, "f"⟩,
      ⟨.lparen, "("⟩, ⟨.identifier, "b"⟩, ⟨.comma, ","⟩, ⟨.newline, "\n"⟩, ⟨.identifier, "k"⟩, ⟨.assign, "="⟩,
      ⟨.number, "1"⟩, ⟨.rparen, ")"⟩, ⟨.orKw, "or"⟩, ⟨.identifier, "c"⟩, ⟨.lbracket, "["⟩, ⟨.number, "1"⟩,
      ⟨.colon, ":"⟩, ⟨.rbracket, "]"⟩, ⟨.semicolon, ";"⟩].map lexeme).toArray
    let e : Node := .logical "or" (.binary "not in" (.unary "-" (.identifier "a")) (.call (.identifier "f")
      [.identifier "b", .argument (some "k") (.literal (.text "1") .number)]))
      (.subscript (.identifier "c") (.slice (.literal (.text "1") .number) .missing .missing))
    Parse.expression? tokens 0 = .ok e 19 ∧ ∃ (m : Nat) (taken : List Token), (19 : Int) = m ∧
      restAt tokens 0 = taken ++ restAt tokens m ∧
      Shows e ((withoutStrays false taken (restAt tokens m)).filter Token.isShown) ∧
      (e.Complete ↔ gapless false taken) :=
  ⟨rfl, tokens_of_expression rfl⟩

theorem Shows.length_identifier (h : Shows (.identifier name) ts) : ts.length = 1 := by
  generalize hn : Node.identifier name = n at h
  cases h with
  | identifier => rfl
  | operation _ hop => cases hop <;> cases hn
  | _ => cases hn

/-- The negation of `a not b` is lost, and `or a` has no left operand. -/
theorem exists_expression_loses_token :
    (∃ (tokens : Array Token) (e : Node) (m : Nat) (taken : List Token), Parse.expression? tokens 0 = .ok e m ∧
      restAt tokens 0 = taken ++ restAt tokens m ∧ ¬ Shows e (taken.filter Token.isShown)) ∧
    ∃ (tokens : Array Token) (e : Node) (m : Nat), Parse.expression? tokens 0 = .ok e m ∧ e.isPresent ∧
      ¬ e.Complete := by
  constructor
  · let tokens := ([⟨.identifier, "a"⟩, ⟨.notKw, "not"⟩, ⟨.identifier, "b"⟩, ⟨.semicolon, ";"⟩].map lexeme).toArray
    refine ⟨tokens, .identifier "a", 2, [⟨.identifier, "a"⟩, ⟨.notKw, "not"⟩].map lexeme, rfl, rfl, fun h => ?_⟩
    have hlength := h.length_identifier
    revert hlength
    decide
  · let tokens := ([⟨.orKw, "or"⟩, ⟨.identifier, "a"⟩, ⟨.semicolon, ";"⟩].map lexeme).toArray
    refine ⟨tokens, .logical "or" .missing (.identifier "a"), 2, rfl, rfl, fun h => ?_⟩
    exact absurd (h.here) (by decide)

end BraceLang
