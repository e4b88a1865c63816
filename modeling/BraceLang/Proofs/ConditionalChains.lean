import BraceLang.Proofs.BlockRoundTrip
import BraceLang.Proofs.Budget
import BraceLang.Proofs.KeptText
import BraceLang.Proofs.StatementOutcome

/-!
# Chains of conditionals

A further condition of a chain is spelled as `elif`, as `else if`, or as an `else` whose block holds nothing but a
conditional.
-/

namespace BraceLang

open List Parse Emit

namespace Parse

/-! ### Larger budgets for statements -/

section

variable {p q : Parse Node}

@[gcongr] theorem below_statementsUntil (h : Below p q) :
    Below (statementsUntil done blanks p) (statementsUntil done blanks q) := by
  unfold statementsUntil statementStep
  gcongr

@[gcongr] theorem below_block (h : Below p q) : Below (block p) (block q) := by
  unfold block
  gcongr

@[gcongr] theorem below_conditionalRest (h : Below p q) : Below (conditionalRest p n) (conditionalRest q n) := by
  induction n with
  | zero => exact .refl _
  | succ =>
    unfold conditionalRest
    gcongr

@[gcongr] theorem below_switchRest (h : Below p q) : Below (switchRest p) (switchRest q) := by
  unfold switchRest caseRest
  gcongr
  rename_i found
  obtain ⟨cases, default⟩ := found
  dsimp only
  gcongr

theorem below_simpleStep (h : Below p q) : Below (simpleStep p) (simpleStep q) := by
  unfold simpleStep whileRest forRest
  dsimp only
  gcongr

end

theorem simpleWithin_mono (h : n ≤ m) : Below (simpleWithin n) (simpleWithin m) := by
  induction n generalizing m with
  | zero => exact fun tokens i a j hanswer => by cases hanswer
  | succ n ih =>
    obtain ⟨m, rfl⟩ : ∃ k, m = k + 1 := ⟨m - 1, by omega⟩
    exact below_simpleStep (ih (Nat.le_of_succ_le_succ h))

end Parse

/-! ### Spellings -/

abbrev Branch := Node × List Node

/-- The second block of a conditional that the branches follow.  Each of them is all that there is in the block before,
and `last` is the block of the `else`. -/
def chained : List Branch → List Node → List Node
  | [], last => last
  | branch :: rest, last => [.conditional branch.1 branch.2 (chained rest last)]

/-- From the index `i` up to `j`, a block is read behind its opening brace. -/
def ReadsBlock (tokens : Array Token) (i : Nat) (body : List Node) (j : Nat) : Prop :=
  block (simpleWithin (tokens.size - i)) tokens i = .ok body j

/-- From the index `i` up to `j`, a condition that is no assignment is read, and then its block. -/
def ReadsBranch (tokens : Array Token) (i : Nat) (branch : Branch) (j : Nat) : Prop :=
  ∃ k : Nat, expression tokens i = .ok branch.1 k ∧ (∀ complaint, rejectAssignment branch.1 complaint = pure ()) ∧
    KindAt tokens k .lbrace ∧ ReadsBlock tokens (k + 1) branch.2 j

/-- From the index `i` up to `j`, the tokens spell what follows a block of a chain: the further branches, each in one of
the three ways, and the block of the `else`. -/
inductive Spelled (tokens : Array Token) : Nat → List Branch → List Node → Nat → Prop
  | done (h : KindAt tokens i kind) (hkind : kind ∉ [.elifKw, .elseKw]) : Spelled tokens i [] [] i
  | otherwise (helse : KindAt tokens i .elseKw) (hbrace : KindAt tokens (i + 1) .lbrace)
      (hblock : ReadsBlock tokens (i + 1 + 1) last j) (hlast : ∀ c t e, last ≠ [.conditional c t e]) :
      Spelled tokens i [] last j
  | elif (helif : KindAt tokens i .elifKw) (hbranch : ReadsBranch tokens (i + 1) branch j)
      (hrest : Spelled tokens j rest last k) : Spelled tokens i (branch :: rest) last k
  | elseIf (helse : KindAt tokens i .elseKw) (hif : KindAt tokens (i + 1) .ifKw)
      (hbranch : ReadsBranch tokens (i + 1 + 1) branch j) (hrest : Spelled tokens j rest last k) :
      Spelled tokens i (branch :: rest) last k
  | nested (helse : KindAt tokens i .elseKw) (hopen : KindAt tokens (i + 1) .lbrace)
      (hlines : Leaves tokens (i + 1 + 1) false l) (hif : KindAt tokens l .ifKw)
      (hbranch : ReadsBranch tokens (l + 1) branch j) (hrest : Spelled tokens j rest last k)
      (hlines' : Leaves tokens k false m) (hclose : KindAt tokens m .rbrace) :
      Spelled tokens i (branch :: rest) last (m + 1)

section

variable {tokens : Array Token} {i j k m n : Nat} {branch : Branch} {rest : List Branch} {body last : List Node}

/-! ### Where the cursor is -/

theorem forward {α : Type} {T : Trail} {p : Parse α} {needs P : α → Prop} {a : α}
    (h : Leads (.bare tokens) T i p needs P)
    (hp : p tokens i = .ok a j) : i ≤ j := by
  obtain ⟨m, hm, hread, -⟩ := (h i (Nat.le_refl i)).value rfl hp
  exact Int.ofNat.inj hm ▸ hread.le

theorem ReadsBlock.le (h : ReadsBlock tokens i body j) : i ≤ j :=
  forward (gives_block (takes_simpleWithin _ (by simp [Tape.Allows]))) h

theorem ReadsBranch.lt (h : ReadsBranch tokens i branch j) : i < j := by
  obtain ⟨k, hexpression, -, -, hblock⟩ := h
  have hk : i ≤ k := forward takes_expression hexpression
  exact Nat.lt_of_le_of_lt hk hblock.le

theorem Spelled.le (h : Spelled tokens i rest last j) : i ≤ j := by
  induction h with
  | done => exact Nat.le_refl _
  | otherwise _ _ hblock =>
    have := hblock.le
    omega
  | elif _ hbranch | elseIf _ _ hbranch =>
    have := hbranch.lt
    omega
  | nested _ _ hlines _ hbranch _ hlines' =>
    have := hbranch.lt
    have := hlines.1
    have := hlines'.1
    omega

/-! ### Reading a chain -/

theorem ReadsBlock.within (h : ReadsBlock tokens i body j) (hm : tokens.size ≤ i + m) :
    block (simpleWithin m) tokens i = .ok body j :=
  below_block (simpleWithin_mono (by omega)) h

def afterBlock (statement : Parse Node) (n : Nat) (branch : Branch) : Parse Node := do
  if ← check [.elifKw] then
    let _ ← advance
    return .conditional branch.1 branch.2 [← conditionalRest statement n]
  if ← accept [.elseKw] then
    if ← check [.ifKw] then return .conditional branch.1 branch.2 [← statement]
    let _ ← expect .lbrace "Expected '\x7b' after 'else'"
    return .conditional branch.1 branch.2 (← block statement)
  return .conditional branch.1 branch.2 []

theorem ReadsBranch.conditionalRest (h : ReadsBranch tokens i branch j) (hm : tokens.size ≤ i + m) :
    conditionalRest (simpleWithin m) (n + 1) tokens i = afterBlock (simpleWithin m) n branch tokens j := by
  obtain ⟨k, hexpression, hreject, hbrace, hblock⟩ := h
  have hk : i ≤ k := forward takes_expression hexpression
  rw [Parse.conditionalRest, bind_ok hexpression, hreject]
  refine expect_bind hbrace (by decide) fun _ _ => ?_
  rw [bind_ok (hblock.within (by omega))]
  rfl

theorem simpleWithin_if (hif : KindAt tokens i .ifKw) :
    simpleWithin (m + 1) tokens i =
      conditionalRest (simpleWithin m) ((tokens.size - (i + 1 : Nat) : Int).toNat + 1 + 1) tokens (i + 1 : Nat) := by
  rw [simpleWithin, simpleStep, ifAccept_miss hif (by decide), ifAccept_miss hif (by decide),
    bind_ok (looksTyped_miss hif (by decide)), if_neg (by decide), ifAccept_miss hif (by decide),
    ifAccept_hit hif (by decide)]
  rfl

theorem Continues.lines {statement : Parse Node} {ns : List Node} (h : Continues tokens statement j k ns)
    (hlines : Leaves tokens i false j) : Continues tokens statement i k ns := by
  obtain ⟨hij, hline⟩ := hlines
  obtain ⟨d, rfl⟩ := Nat.exists_eq_add_of_le hij
  clear hij
  induction d generalizing i with
  | zero => exact h
  | succ d ih =>
    rw [show i + (d + 1) = i + 1 + d by omega] at h hline
    exact (ih h fun l hl => hline l (by omega)).blank (hline i (Nat.le_refl i) (by omega))

/-- The budgets that are left, for statements inside each other and for `elif`s, are enough for the tokens that are
left: every block and every `elif` is behind a token. -/
theorem Spelled.afterBlock (h : Spelled tokens j rest last k) :
    ∀ {m n : Nat} (first : Branch), tokens.size ≤ j + m → tokens.size ≤ j + n →
      afterBlock (simpleWithin m) n first tokens j = .ok (.conditional first.1 first.2 (chained rest last)) k := by
  induction h with
  | done h =>
    intro m n first _ _
    rw [BraceLang.afterBlock, ifCheck_miss h (by simp_all), ifAccept_miss h (by simp_all)]
    rfl
  | otherwise helse hbrace hblock =>
    intro m n first hm _
    rw [BraceLang.afterBlock, ifCheck_miss helse (by decide), ifAccept_hit helse (by decide),
      ifCheck_miss hbrace (by decide)]
    refine expect_bind hbrace (by decide) fun _ _ => ?_
    rw [bind_ok (hblock.within (by omega))]
    rfl
  | @elif _ branch _ _ _ _ helif hbranch _ ih =>
    intro m n first hm hn
    have := hbranch.lt
    have := helif.lt_size
    obtain ⟨n, rfl⟩ : ∃ n', n = n' + 1 := ⟨n - 1, by omega⟩
    have hrest := ih (m := m) (n := n) branch (by omega) (by omega)
    rw [← hbranch.conditionalRest (by omega)] at hrest
    obtain ⟨t, ht, hkind⟩ := helif
    rw [BraceLang.afterBlock, ifCheck_hit ⟨t, ht, hkind⟩ (by decide), bind_ok (advance_ok ht (by rw [hkind]; decide)),
      bind_ok hrest]
    rfl
  | @elseIf i branch _ _ _ _ helse hif hbranch _ ih =>
    intro m n first hm _
    have := hbranch.lt
    have := hif.lt_size
    obtain ⟨m, rfl⟩ : ∃ m', m = m' + 1 := ⟨m - 1, by omega⟩
    have hrest := ih (m := m) (n := (tokens.size - (i + 1 + 1 : Nat) : Int).toNat + 1) branch (by omega) (by omega)
    rw [← hbranch.conditionalRest (by omega), ← simpleWithin_if hif] at hrest
    rw [BraceLang.afterBlock, ifCheck_miss helse (by decide), ifAccept_hit helse (by decide),
      ifCheck_hit hif (by decide), bind_ok hrest]
    rfl
  | @nested _ l branch _ _ _ _ _ helse hopen hlines hif hbranch hspelled hlines' hclose ih =>
    intro m n first hm _
    have := hbranch.lt
    have := hif.lt_size
    have := hlines.1
    have := hspelled.le
    obtain ⟨m, rfl⟩ : ∃ m', m = m' + 1 := ⟨m - 1, by omega⟩
    have hrest := ih (m := m) (n := (tokens.size - (l + 1 : Nat) : Int).toNat + 1) branch (by omega) (by omega)
    rw [← hbranch.conditionalRest (by omega), ← simpleWithin_if hif] at hrest
    have hinside := (((continues_done hclose).lines hlines').cons hif (by decide) hrest rfl (by omega)).lines hlines
    rw [BraceLang.afterBlock, ifCheck_miss helse (by decide), ifAccept_hit helse (by decide),
      ifCheck_miss hopen (by decide)]
    refine expect_bind hopen (by decide) fun _ _ => ?_
    rw [bind_ok (hinside.block hclose)]
    rfl

/-! ### Writing a chain -/

theorem Spelled.not_lone (h : Spelled tokens i rest last j) : ∀ c t e, last ≠ [.conditional c t e] := by
  induction h with
  | done => exact fun _ _ _ => (cons_ne_nil _ _).symm
  | otherwise _ _ _ hlast => exact hlast
  | elif _ _ _ ih | elseIf _ _ _ _ ih | nested _ _ _ _ _ _ _ _ ih => exact ih

def writeBranch (target : Target) (keyword : String) (branch : Branch) : Emit Unit := do
  writeBlock (keyword ++ (← freshText (branch.1.emit target)) ++ ":\n") (Node.emitAll target branch.2)

theorem emitElse_chained (target : Target) (hlast : ∀ c t e, last ≠ [.conditional c t e]) (rest : List Branch) :
    Node.emitElse target (chained rest last) = (do
      rest.forM (writeBranch target "elif ")
      if last.isEmpty then pure () else writeBlock "else:\n" (Node.emitAll target last)) := by
  induction rest with
  | nil =>
    cases last with
    | nil => rfl
    | cons =>
      rw [chained, Node.emitElse]
      · rfl
      · intro c t e hn hns
        exact hlast c t e (by rw [hn, hns])
  | cons branch rest ih =>
    rw [chained, Node.emitElse, ih]
    rfl

theorem depth_writeBranch (target : Target) (keyword : String) (branch : Branch) (he : e.finals ≠ []) :
    (writeBranch target keyword branch e).2.depth = e.depth := by
  have hwritten : Settles [] (writeBranch target keyword branch) :=
    (settles_node branch.1).freshText.settles fun _ => (settles_all branch.2).block _
  obtain ⟨_, _, hframed⟩ := hwritten.framed e he
  rw [hframed]

/-- However the branches of a chain are spelled, it is read up to its end as the same tree; and the tree is written as
one `if`, an `elif` for each further branch, and an `else` if its block has statements.  Each of them starts with the
indentation that the chain starts with. -/
theorem conditional_chain {first : Branch} (hif : KindAt tokens i .ifKw) (hfirst : ReadsBranch tokens (i + 1) first j)
    (hrest : Spelled tokens j rest last k) :
    simpleStatement tokens i = .ok (.conditional first.1 first.2 (chained rest last)) k ∧
    (∀ target, Node.emit target (.conditional first.1 first.2 (chained rest last)) = (do
      writeBranch target "if " first
      rest.forM (writeBranch target "elif ")
      if last.isEmpty then pure () else writeBlock "else:\n" (Node.emitAll target last))) ∧
    ∀ target keyword branch (e : Emitter), e.finals ≠ [] → (writeBranch target keyword branch e).2.depth = e.depth := by
  have hlt := hfirst.lt
  refine ⟨?_, fun target => ?_, fun target keyword branch e => depth_writeBranch target keyword branch⟩
  · have hread := hrest.afterBlock (m := (tokens.size - (i : Nat) : Int).toNat + 1)
      (n := (tokens.size - (i + 1 : Nat) : Int).toNat + 1) first (by omega) (by omega)
    rw [← hfirst.conditionalRest (by omega), ← simpleWithin_if hif] at hread
    exact hread
  · rw [Node.emit, emitElse_chained target hrest.not_lone]
    rfl

end

/-- All three spellings in one chain. -/
theorem conditional_chain_mixed :
    let token (w : Word) : Token := ⟨w.kind, some w.text, 1, 0, none⟩
    let written : List Word :=
      [⟨.ifKw, "if"⟩, ⟨.identifier, "a"⟩, ⟨.lbrace, "\x7b"⟩, ⟨.rbrace, "\x7d"⟩, ⟨.elifKw, "elif"⟩, ⟨.identifier, "b"⟩,
        ⟨.lbrace, "\x7b"⟩, ⟨.rbrace, "\x7d"⟩, ⟨.elseKw, "else"⟩, ⟨.ifKw, "if"⟩, ⟨.identifier, "c"⟩, ⟨.lbrace, "\x7b"⟩,
        ⟨.rbrace, "\x7d"⟩, ⟨.elseKw, "else"⟩, ⟨.lbrace, "\x7b"⟩, newlineWord, ⟨.ifKw, "if"⟩, ⟨.identifier, "d"⟩,
        ⟨.lbrace, "\x7b"⟩, ⟨.rbrace, "\x7d"⟩, ⟨.elseKw, "else"⟩, ⟨.lbrace, "\x7b"⟩, ⟨.passKw, "pass"⟩,
        ⟨.rbrace, "\x7d"⟩, ⟨.rbrace, "\x7d"⟩]
    simpleStatement (written.map token).toArray 0 =
      .ok (.conditional (.identifier "a") [] [.conditional (.identifier "b") [] [.conditional (.identifier "c") []
        [.conditional (.identifier "d") [] [.pass false]]]]) 25 := by
  intro token written
  set tokens := (written.map token).toArray
  have ha : ReadsBranch tokens 1 (.identifier "a", []) 4 := ⟨2, rfl, fun _ => rfl, ⟨_, rfl, rfl⟩, rfl⟩
  have hb : ReadsBranch tokens 5 (.identifier "b", []) 8 := ⟨6, rfl, fun _ => rfl, ⟨_, rfl, rfl⟩, rfl⟩
  have hc : ReadsBranch tokens 10 (.identifier "c", []) 13 := ⟨11, rfl, fun _ => rfl, ⟨_, rfl, rfl⟩, rfl⟩
  have hd : ReadsBranch tokens 17 (.identifier "d", []) 20 := ⟨18, rfl, fun _ => rfl, ⟨_, rfl, rfl⟩, rfl⟩
  have hlast : ReadsBlock tokens 22 [.pass false] 24 := rfl
  have hline : Leaves tokens 15 false 16 := by
    refine ⟨by decide, fun l hl hl' => ?_⟩
    obtain rfl : l = 15 := by omega
    exact ⟨_, rfl, rfl⟩
  have hrest : Spelled tokens 20 [] [.pass false] 24 := .otherwise ⟨_, rfl, rfl⟩ ⟨_, rfl, rfl⟩ hlast (by simp)
  have hnested := Spelled.nested ⟨_, rfl, rfl⟩ ⟨_, rfl, rfl⟩ hline ⟨_, rfl, rfl⟩ hd hrest (leaves_self _ 24)
    ⟨_, rfl, rfl⟩
  have hfurther : Spelled tokens 8 _ _ 25 := .elseIf ⟨_, rfl, rfl⟩ ⟨_, rfl, rfl⟩ hc hnested
  exact (conditional_chain ⟨_, rfl, rfl⟩ ha (.elif ⟨_, rfl, rfl⟩ hb hfurther)).1

end BraceLang
