import BraceLang.Proofs.Appending

/-!
# Statements that look the same for every target

Only the heads of functions and classes, interfaces and the types of assignments are written for a target.
-/

namespace BraceLang

open List

namespace Node

/-- Whether a node is neither a declaration of functions or types nor an assignment with a type. -/
def isShared : Node → Bool
  | interface .. | signature .. | classDecl .. | dataClass .. | enumDecl .. | function ..
  | assignment _ _ _ (some _) _ => false
  | _ => true

/-- All nodes of a tree are written in the same way for both targets. -/
def Same (order : NameOrder) (n : Node) : Prop := n.Everywhere fun m => m.emit .python = m.emit (.cython order)

variable {order : NameOrder} {n : Node} {ns : List Node}

theorem Same.eq (h : n.Same order) : n.emit .python = n.emit (.cython order) := by
  cases n with
  | missing => rfl
  | _ => exact h.here rfl

theorem Same.node {m : Node} {name : String} (h : n.Same order) (i : Nat) (hf : n.fields[i]? = some (name, .node m)) :
    m.Same order :=
  Everywhere.node h i hf

theorem Same.nodes {name : String} (h : n.Same order) (i : Nat) (hf : n.fields[i]? = some (name, .nodes (some ns))) :
    ∀ m ∈ ns, m.Same order :=
  Everywhere.nodes h i hf

theorem emitAll_same (h : ∀ n ∈ ns, n.Same order) : emitAll .python ns = emitAll (.cython order) ns := by
  induction ns with
  | nil => rfl
  | cons n ns ih =>
    obtain ⟨hn, hns⟩ := forall_mem_cons.1 h
    rw [emitAll, emitAll, hn.eq, ih hns]

theorem emitFollowing_same (h : ∀ n ∈ ns, n.Same order) (separator : String) :
    emitFollowing .python separator ns = emitFollowing (.cython order) separator ns := by
  induction ns with
  | nil => rfl
  | cons n ns ih =>
    obtain ⟨hn, hns⟩ := forall_mem_cons.1 h
    rw [emitFollowing, emitFollowing, hn.eq, ih hns]

theorem emitSeparated_same (h : ∀ n ∈ ns, n.Same order) :
    emitSeparated .python ns = emitSeparated (.cython order) ns := by
  cases ns with
  | nil => rfl
  | cons n ns =>
    obtain ⟨hn, hns⟩ := forall_mem_cons.1 h
    rw [emitSeparated, emitSeparated, hn.eq, emitFollowing_same hns]

theorem cutTexts_same (h : ∀ n ∈ ns, n.Same order) : cutTexts .python ns = cutTexts (.cython order) ns := by
  induction ns with
  | nil => rfl
  | cons n ns ih =>
    obtain ⟨hn, hns⟩ := forall_mem_cons.1 h
    rw [cutTexts, cutTexts, hn.eq, ih hns]

theorem emitCases_same (h : ∀ n ∈ ns, n.Same order) (subject keyword : String) :
    emitCases .python subject keyword ns = emitCases (.cython order) subject keyword ns := by
  induction ns generalizing keyword with
  | nil => rfl
  | cons n ns ih =>
    obtain ⟨hn, hns⟩ := forall_mem_cons.1 h
    cases n with
    | case value body =>
      rw [emitCases, emitCases, (hn.node 0 rfl).eq, emitAll_same (hn.nodes 1 rfl), ih hns]
    | _ => exact ih hns keyword

theorem emitElse_same : ∀ {ns : List Node}, (∀ n ∈ ns, n.Same order) → emitElse .python ns = emitElse (.cython order) ns
  | [], _ => rfl
  | n :: ns, h => by
    obtain ⟨hn, hns⟩ := forall_mem_cons.1 h
    have hplain : writeBlock "else:\n" (do emit .python n; emitAll .python ns) =
        writeBlock "else:\n" (do emit (.cython order) n; emitAll (.cython order) ns) := by
      rw [hn.eq, emitAll_same hns]
    cases n with
    | conditional c t e =>
      cases ns with
      | nil =>
        rw [emitElse, emitElse, (hn.node 0 rfl).eq, emitAll_same (hn.nodes 1 rfl), emitElse_same (hn.nodes 2 rfl)]
      | cons => exact hplain
    | _ => exact hplain

/-- One node: what it needs of its parts is the same for both targets. -/
theorem emit_same (h : n.isShared) (hparts : ∀ c ∈ n.parts, c.Same order) :
    n.emit .python = n.emit (.cython order) := by
  have hnode {name : String} {m : Node} (i : Nat) (hf : n.fields[i]? = some (name, .node m)) : m.Same order :=
    hparts m (mem_flatMap.2 ⟨_, mem_of_getElem? hf, mem_singleton.2 rfl⟩)
  have hnodes {name : String} {ns : List Node} (i : Nat) (hf : n.fields[i]? = some (name, .nodes (some ns))) :
      ∀ m ∈ ns, m.Same order :=
    fun m hm => hparts m (mem_flatMap.2 ⟨_, mem_of_getElem? hf, hm⟩)
  cases n with
  | interface | signature | classDecl | function | dataClass | enumDecl => cases h
  | expression value =>
    have hvalue : value.Same order := hnode 0 rfl
    rw [emit, emit, hvalue.eq]
    cases value with
    | assignment place assigned =>
      have hassigned : assigned.Same order := hvalue.node 1 rfl
      cases place with
      | identifier => simp only [hassigned.eq]
      | _ => rfl
    | _ => rfl
  | returns value => rw [emit, emit, (hnode 0 rfl).eq]
  | raises value => rw [emit, emit, (hnode 0 rfl).eq]
  | conditional c t e =>
    rw [emit, emit, (hnode 0 rfl).eq, emitAll_same (hnodes 1 rfl), emitElse_same (hnodes 2 rfl)]
  | forLoop clause body =>
    have hclause : clause.Same order := hnode 0 rfl
    have hbody := emitAll_same (hnodes 1 rfl)
    have hplain : (do
          Emit.line "for "
          (do Emit.write ((← Emit.freshText (emit .python clause)) ++ ":\n"))
          Emit.deeper (emitAll .python body)) = (do
          Emit.line "for "
          (do Emit.write ((← Emit.freshText (emit (.cython order) clause)) ++ ":\n"))
          Emit.deeper (emitAll (.cython order) body)) := by
      rw [hclause.eq, hbody]
    cases clause with
    | binary operator item source =>
      by_cases hop : operator = "in"
      · subst hop
        simp only [emit, (hclause.node 1 rfl).eq, (hclause.node 2 rfl).eq, hbody]
      · rw [emit_forLoop_of_ne hop, emit_forLoop_of_ne hop]
        exact hplain
    | _ => exact hplain
  | whileLoop c body => rw [emit, emit, (hnode 0 rfl).eq, emitAll_same (hnodes 1 rfl)]
  | switch subject cases default =>
    have hcases := emitCases_same (hnodes 1 rfl)
    have hdefault : ∀ n ∈ default, n.Same order := hnodes 2 rfl
    cases default with
    | nil => simp only [emit, (hnode 0 rfl).eq, hcases]
    | cons =>
      obtain ⟨hn, hns⟩ := forall_mem_cons.1 hdefault
      simp only [emit, (hnode 0 rfl).eq, hcases, hn.eq, emitAll_same hns]
  | assignment place value operator type =>
    cases type with
    | some => cases h
    | none => rw [emit, emit, (hnode 0 rfl).eq, (hnode 1 rfl).eq]
  | member object => rw [emit, emit, (hnode 0 rfl).eq]
  | collection items kind =>
    have hitems := emitSeparated_same (hnodes 0 rfl)
    cases kind with
    | tuple | list | dict | set => rw [emit, emit, hitems]
    | _ => simp only [emit]
  | call callee arguments => rw [emit, emit, (hnode 0 rfl).eq, cutTexts_same (hnodes 1 rfl)]
  | argument name value => rw [emit, emit, (hnode 1 rfl).eq]
  | logical operator left right =>
    rw [emit, emit, (hnode 1 rfl).eq, (hnode 2 rfl).eq]
  | binary operator left right =>
    rw [emit, emit, (hnode 1 rfl).eq, (hnode 2 rfl).eq]
  | unary operator operand => rw [emit, emit, (hnode 1 rfl).eq]
  | entry key value => rw [emit, emit, (hnode 0 rfl).eq, (hnode 1 rfl).eq]
  | subscript object index => rw [emit, emit, (hnode 0 rfl).eq, (hnode 1 rfl).eq]
  | comprehension element place source condition kind key =>
    rw [emit, emit, (hnode 0 rfl).eq, (hnode 1 rfl).eq, (hnode 2 rfl).eq, (hnode 3 rfl).eq,
      (hnode 5 rfl).eq]
  | finalDecl place value => rw [emit, emit, (hnode 0 rfl).eq, (hnode 1 rfl).eq]
  | _ => rw [emit, emit]

theorem Everywhere.same (h : n.Everywhere fun m => m.isShared = true) : n.Same order := by
  induction n using walk.induct with
  | case1 n ih =>
    obtain ⟨hn, hparts⟩ := everywhere_iff.1 h
    have hsame (c : Node) (hc : c ∈ n.parts) : c.Same order := by
      cases hp : c.isPresent with
      | true => exact ih ⟨c, mem_reverse.2 (children_eq n ▸ mem_filter.2 ⟨hc, hp⟩)⟩ (hparts c hc)
      | false =>
        cases c with
        | missing => exact everywhere_iff.2 ⟨fun h => (by cases h), fun m hm => (by cases hm)⟩
        | _ => cases hp
    exact everywhere_iff.2 ⟨fun hp => emit_same (hn hp) hsame, hsame⟩

/-- Statements without declarations of functions or types and without types of assignments are written in the same way
for all forms of output: from any state of the writer they lead to the same output and the same finals. -/
theorem emitAll_target_eq (h : ∀ n ∈ ns, n.Everywhere fun m => m.isShared = true) (form form' : OutputForm)
    (order order' : NameOrder) (e : Emitter) :
    emitAll (form.target order) ns e = emitAll (form'.target order') ns e := by
  have hpython (form : OutputForm) (order : NameOrder) : emitAll (form.target order) ns = emitAll .python ns := by
    have hsame : emitAll .python ns = emitAll (.cython order) ns := emitAll_same fun n hn => (h n hn).same
    cases form with
    | python => rfl
    | cython | executable => exact hsame.symm
  rw [hpython form, hpython form']

/-- A final that is inlined behind it, in a chain of conditionals in a loop. -/
theorem emitAll_target_eq_loop :
    let x := identifier "x"
    let ns := [finalDecl x (literal (.text "1") .number) none, forLoop (binary "in" (identifier "i") x)
      [conditional x [expression (assignment x x none none {}) true] [conditional x [pass true] [returns x true]]]]
    emitAll .python ns {} = emitAll (.cython .sorted) ns {} :=
  emitAll_target_eq (by decide +kernel) .python .executable .sorted .sorted {}

end Node

end BraceLang
