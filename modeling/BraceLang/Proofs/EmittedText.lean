import BraceLang.Proofs.Formula
import BraceLang.Proofs.Refinement

/-!
# The text of a formula

`Formula.emitted` is the text that the writer makes of a formula: every sign and every operator stands in parentheses.
-/

namespace BraceLang

namespace Formula

def argumentText : Option String → String → String
  | none, t => t
  | some s, t => s ++ "=" ++ t

mutual

def emitted : Formula → String
  | name s => s
  | number s => s
  | text s => quoted s
  | truth b => truthText b
  | nothing => "None"
  | sign s x => "(" ++ s.word.text ++ " " ++ x.emitted ++ ")"
  | binary o l r => "(" ++ l.emitted ++ " " ++ o.text ++ " " ++ r.emitted ++ ")"
  | member x s => x.emitted ++ "." ++ s
  | call f args => f.emitted ++ "(" ++ emittedArguments args ++ ")"
  | index x i => x.emitted ++ "[" ++ i.emitted ++ "]"
  | list items => "[" ++ emittedItems items ++ "]"
  | tuple [x] => "(" ++ x.emitted ++ "," ++ ")"
  | tuple items => "(" ++ emittedItems items ++ ")"
  | set first rest => "\x7b" ++ (first.emitted ++ emittedMore rest) ++ "\x7d"
  | dict entries => "\x7b" ++ emittedEntries entries ++ "\x7d"

def emittedItems : List Formula → String
  | [] => ""
  | x :: xs => x.emitted ++ emittedMore xs

def emittedMore : List Formula → String
  | [] => ""
  | x :: xs => ", " ++ (x.emitted ++ emittedMore xs)

def emittedArguments : List (Option String × Formula) → String
  | [] => ""
  | (s, x) :: args => argumentText s x.emitted ++ emittedMoreArguments args

def emittedMoreArguments : List (Option String × Formula) → String
  | [] => ""
  | (s, x) :: args => ", " ++ (argumentText s x.emitted ++ emittedMoreArguments args)

def emittedEntries : List (Formula × Formula) → String
  | [] => ""
  | (k, v) :: entries => k.emitted ++ ": " ++ v.emitted ++ emittedMoreEntries entries

def emittedMoreEntries : List (Formula × Formula) → String
  | [] => ""
  | (k, v) :: entries => ", " ++ (k.emitted ++ ": " ++ v.emitted ++ emittedMoreEntries entries)

end

end Formula

/-! ### What can be written and read again -/

def IsName (s : String) : Prop := IsWord s.toList ∧ TokenKind.ofWord s = .identifier

structure IsPlainText (s : String) : Prop where
  printable : ∀ c ∈ s.toList, isPrintable c
  backslash : '\\' ∉ s.toList
  quotes : ¬('"' ∈ s.toList ∧ '\'' ∈ s.toList)

namespace Formula

mutual

/-- Names are names, numbers are numbers, texts need no escapes, and no callee is the shorthand for the constructor of
the base class. -/
def Writable : Formula → Prop
  | name s => IsName s
  | number s => IsNumeral s.toList
  | text s => IsPlainText s
  | truth _ => True
  | nothing => True
  | sign _ x => x.Writable
  | binary _ l r => l.Writable ∧ r.Writable
  | member x s => x.Writable ∧ IsName s
  | call f args => f.node.isSuper = false ∧ f.Writable ∧ ArgumentsWritable args
  | index x i => x.Writable ∧ i.Writable
  | list items => AllWritable items
  | tuple items => AllWritable items
  | set first rest => first.Writable ∧ AllWritable rest
  | dict entries => EntriesWritable entries

def AllWritable : List Formula → Prop
  | [] => True
  | x :: xs => x.Writable ∧ AllWritable xs

def ArgumentsWritable : List (Option String × Formula) → Prop
  | [] => True
  | (s, x) :: args => (∀ n ∈ s, IsName n) ∧ x.Writable ∧ ArgumentsWritable args

def EntriesWritable : List (Formula × Formula) → Prop
  | [] => True
  | (k, v) :: entries => k.Writable ∧ v.Writable ∧ EntriesWritable entries

end

end Formula

/-! ### Formulas -/

def Emitter.NoFinals (e : Emitter) : Prop := ∀ name, e.finalValue? name = none

/-- Without finals, the text is made and the context is left as it is. -/
def Render.Gives {α : Type} (r : Render α) (a : α) : Prop := ∀ s : Context, (s.writer #[]).NoFinals → r s = (a, s)

namespace Render.Gives

variable {α β : Type} {r r' : Render String} {t t' : String}

theorem bind {f : α → Render β} (h : Gives q a) (h' : Gives (f a) b) : Gives (q >>= f) b := by
  intro s hs
  show f (q s).1 (q s).2 = _
  rw [h s hs, h' s hs]

theorem append (h : Gives r t) (h' : Gives r' t') : Gives (r ++ r') (t ++ t') := h.bind (h'.bind fun _ _ => rfl)

theorem of_ite {p : Prop} [Decidable p] (hp : ¬p) (h : Gives r' t) : Gives (if p then r else r') t := by
  rwa [if_neg hp]

theorem bracketed (h : Gives r t) : Gives (pure opening ++ (r ++ pure closing)) (opening ++ t ++ closing) := by
  rw [String.append_assoc]
  exact append (fun _ _ => rfl) (h.append fun _ _ => rfl)

end Render.Gives

def Emit.Writes (m : Emit Unit) (t : String) : Prop := ∃ r, Renders true m r ∧ r.Gives t

theorem Emit.Writes.freshText (h : Writes m t) (e : Emitter) (he : e.NoFinals) : freshText m e = (t, e) := by
  obtain ⟨r, hr, ht⟩ := h
  have htext := hr.freshText e.context e.output
  rw [ht e.context he] at htext
  exact htext

structure Yields (target : Target) (n : Node) (t : String) : Prop where
  legible : n.Legible
  writes : n.writes = true
  text : (n.render target).Gives t

structure YieldMore (target : Target) (ns : List Node) (t : String) : Prop where
  legible : Node.AllLegible ns
  text : (Node.renderFollowing target ", " ns).Gives t

section

variable {target : Target} {n n' : Node} {ns : List Node} {t t' : String}

theorem Yields.legible_cons (h : Yields target n t) (h' : YieldMore target ns t') :
    Node.AllLegible (n :: ns) := ⟨h.legible, h'.legible⟩

theorem Yields.separated (h : Yields target n t) (h' : YieldMore target ns t') :
    (Node.renderSeparated target (n :: ns)).Gives (t ++ t') := h.text.append h'.text

theorem Yields.following (h : Yields target n t) (h' : YieldMore target ns t') :
    YieldMore target (n :: ns) (", " ++ (t ++ t')) :=
  ⟨h.legible_cons h', .append (fun _ _ => rfl) (h.separated h')⟩

theorem yields_literal (h : literalPieces value kind = [t]) : Yields target (.literal value kind) t := by
  refine ⟨trivial, rfl, fun s _ => ?_⟩
  show (String.join (literalPieces value kind), s) = (t, s)
  rw [h, String.join_cons, String.join_nil, String.append_empty]

theorem Yields.argument (h : Yields target n t) (s : Option String) :
    Yields target (Formula.argumentNode s n) (Formula.argumentText s t) := by
  cases s with
  | none => exact h
  | some => exact ⟨⟨h.writes, h.legible⟩, rfl, h.text.bind fun _ _ => rfl⟩

theorem Yields.entry (h : Yields target n t) (h' : Yields target n' t') :
    Yields target (.entry n n') (t ++ ": " ++ t') :=
  ⟨⟨⟨h.writes, h.legible⟩, h'.writes, h'.legible⟩, rfl, h.text.bind (h'.text.bind fun _ _ => rfl)⟩

end

theorem intercalate_arguments (args : List (Option String × Formula)) :
    String.intercalate ", " (args.map fun p => Formula.argumentText p.1 p.2.emitted) =
      Formula.emittedArguments args := by
  cases args with
  | nil => exact String.intercalate_nil
  | cons p args =>
    have hmore : ∀ (t : String) (args : List (Option String × Formula)),
        String.intercalate ", " (t :: args.map fun p => Formula.argumentText p.1 p.2.emitted) =
          t ++ Formula.emittedMoreArguments args := by
      intro t args
      induction args generalizing t with
      | nil => rw [List.map_nil, String.intercalate_singleton, Formula.emittedMoreArguments, String.append_empty]
      | cons p args ih =>
        rw [List.map_cons, String.intercalate_cons_cons, ih, Formula.emittedMoreArguments, String.append_assoc]
    rw [List.map_cons, hmore, Formula.emittedArguments]

mutual

theorem yields_formula (target : Target) : ∀ f : Formula, f.Writable → Yields target f.node f.emitted
  | .name s, _ => ⟨trivial, rfl, fun c hc => congrArg (fun v : Option String => (v.getD s, c)) (hc s)⟩
  | .number s, _ => yields_literal (by simp [literalPieces, Scalar.display, Formula.emitted])
  | .text s, _ => yields_literal (by simp [literalPieces, Scalar.full, Formula.emitted])
  | .truth b, _ => yields_literal (by simp [literalPieces, Scalar.isTrue, Formula.emitted])
  | .nothing, _ => yields_literal (by simp [literalPieces, Formula.emitted])
  | .sign s x, h =>
    have hx := yields_formula target x h
    ⟨hx.legible, rfl, hx.text.bind fun _ _ => rfl⟩
  | .binary o l r, h => by
    have hl := yields_formula target l h.1
    have hr := yields_formula target r h.2
    cases o <;> exact ⟨⟨hl.legible, hr.legible⟩, rfl, hl.text.bind (hr.text.bind fun _ _ => rfl)⟩
  | .member x s, h =>
    have hx := yields_formula target x h.1
    ⟨⟨hx.writes, hx.legible⟩, rfl, hx.text.bind fun _ _ => rfl⟩
  | .call f args, h => by
    have hf := yields_formula target f h.2.1
    obtain ⟨hlegible, htexts⟩ := yields_arguments target args h.2.2
    refine ⟨⟨hf.writes, hf.legible, hlegible⟩, rfl, ?_⟩
    rw [Formula.emitted, ← intercalate_arguments]
    exact .of_ite (Bool.eq_false_iff.1 h.1) (hf.text.bind (htexts.bind fun _ _ => rfl))
  | .index x i, h =>
    have hx := yields_formula target x h.1
    have hi := yields_formula target i h.2
    ⟨⟨⟨hx.writes, hx.legible⟩, hi.writes, hi.legible⟩, rfl, hx.text.bind (hi.text.bind fun _ _ => rfl)⟩
  | .list [], _ | .tuple [], _ | .dict [], _ => ⟨trivial, rfl, .bracketed fun _ _ => rfl⟩
  | .list (x :: items), h | .tuple (x :: y :: items), h | .set x items, h => by
    have hx := yields_formula target x h.1
    have hitems := yields_more target _ h.2
    exact ⟨hx.legible_cons hitems, rfl, (hx.separated hitems).bracketed⟩
  | .tuple [x], h => by
    have hx := yields_formula target x h.1
    refine ⟨⟨hx.legible, trivial⟩, rfl, ?_⟩
    rw [Formula.emitted, String.append_assoc, String.append_assoc, ← String.append_empty (s := x.emitted)]
    exact .append (fun _ _ => rfl) ((hx.text.append fun _ _ => rfl).append fun _ _ => rfl)
  | .dict ((k, v) :: entries), h => by
    have hentry := (yields_formula target k h.1).entry (yields_formula target v h.2.1)
    have hentries := yields_moreEntries target entries h.2.2
    exact ⟨hentry.legible_cons hentries, rfl, (hentry.separated hentries).bracketed⟩

theorem yields_more (target : Target) : ∀ items : List Formula, Formula.AllWritable items →
    YieldMore target (Formula.nodes items) (Formula.emittedMore items)
  | [], _ => ⟨trivial, fun _ _ => rfl⟩
  | x :: items, h => (yields_formula target x h.1).following (yields_more target items h.2)

theorem yields_arguments (target : Target) : ∀ args : List (Option String × Formula),
    Formula.ArgumentsWritable args → Node.AllWritten (Formula.argumentNodes args) ∧
      (Node.renderList target (Formula.argumentNodes args)).Gives
        (args.map fun p => Formula.argumentText p.1 p.2.emitted)
  | [], _ => ⟨trivial, fun _ _ => rfl⟩
  | (s, x) :: args, h => by
    have hx := (yields_formula target x h.2.1).argument s
    obtain ⟨hlegible, htexts⟩ := yields_arguments target args h.2.2
    exact ⟨⟨⟨hx.writes, hx.legible⟩, hlegible⟩, hx.text.bind (htexts.bind fun _ _ => rfl)⟩

theorem yields_moreEntries (target : Target) : ∀ entries : List (Formula × Formula),
    Formula.EntriesWritable entries → YieldMore target (Formula.entryNodes entries) (Formula.emittedMoreEntries entries)
  | [], _ => ⟨trivial, fun _ _ => rfl⟩
  | (k, v) :: entries, h =>
    ((yields_formula target k h.1).entry (yields_formula target v h.2.1)).following
      (yields_moreEntries target entries h.2.2)

end

theorem writes_formula (target : Target) (f : Formula) (hf : f.Writable) :
    Emit.Writes (f.node.emit target) f.emitted := by
  obtain ⟨hlegible, hwrites, htext⟩ := yields_formula target f hf
  exact ⟨_, hwrites ▸ renders_node f.node hlegible, htext⟩

end BraceLang
