import BraceLang.Proofs.Lexing
import BraceLang.Proofs.Render
import Mathlib.Data.List.Basic

/-!
# The writer makes the rendered text

`Emit.Renders` says that an action of the writer adds pieces which make up a text, and `Emit.Captures` that it reads a
text off and leaves the pieces alone.
-/

namespace BraceLang

open List

namespace Emit

/-- In every context the action adds pieces that make up the text, at least one of them if that is asked for, and
changes the context as the text does. -/
def Renders (some : Bool) (m : Emit Unit) (r : Render String) : Prop :=
  ∀ (s : Context) (o : Array String), ∃ pieces : List String, (some = true → pieces ≠ []) ∧
    (r s).1 = String.join pieces ∧ m (s.writer o) = ((), (r s).2.writer (o ++ pieces.toArray))

/-- In every context the action gives the value, leaves the pieces alone and changes the context as the value
does. -/
def Captures {α : Type} (m : Emit α) (r : Render α) : Prop :=
  ∀ (s : Context) (o : Array String), m (s.writer o) = ((r s).1, (r s).2.writer o)

section

variable {α β : Type} {b c : Bool} {m m' : Emit Unit} {r r' : Render String} {t : String}

theorem renders_pure : Renders false (pure ()) (pure "") := by
  intro s o
  refine ⟨[], by simp, rfl, ?_⟩
  show ((), s.writer o) = ((), s.writer (o ++ #[]))
  rw [Array.append_empty]

theorem renders_write : Renders true (write t) (pure t) := by
  intro s o
  refine ⟨[t], by simp, ?_, ?_⟩
  · rw [String.join_cons, String.join_nil, String.append_empty]
    rfl
  · show ((), s.writer (o.push t)) = ((), s.writer (o ++ #[t]))
    rw [Array.push_eq_append]

theorem renders_line : Renders true (line t) (Render.line t) := by
  intro s o
  exact renders_write s o

theorem Renders.anyway (h : Renders b m r) : Renders false m r := by
  intro s o
  obtain ⟨ps, _, htext, hrun⟩ := h s o
  exact ⟨ps, by simp, htext, hrun⟩

theorem Renders.sure (h : Renders b m r) (hb : b) : Renders true m r := hb ▸ h

theorem Renders.sequence (h : Renders b m r) (h' : Renders c m' r') :
    Renders (b || c) (m >>= fun _ => m') (r ++ r') := by
  intro s o
  obtain ⟨ps, hps, htext, hrun⟩ := h s o
  obtain ⟨qs, hqs, htext', hrun'⟩ := h' (r s).2 (o ++ ps.toArray)
  refine ⟨ps ++ qs, ?_, ?_, ?_⟩
  · cases b <;> simp_all
  · show (r s).1 ++ (r' (r s).2).1 = _
    rw [htext, htext', String.join_append]
  · show m' (m (s.writer o)).2 = _
    rw [hrun, hrun', ← append_toArray, Array.append_assoc]
    rfl

theorem Renders.append (h : Renders b m r) (h' : Renders false m' r') : Renders b (m >>= fun _ => m') (r ++ r') := by
  rw [← Bool.or_false b]
  exact h.sequence h'

theorem Renders.before (h : Renders false m r) (h' : Renders b m' r') : Renders b (m >>= fun _ => m') (r ++ r') :=
  h.sequence h'

variable {k : Context → Render String} {f : Emitter → Emit Unit} {q : Render α} {g : Emit α} {operator : String}
  {body : List Node} {target : Target}

theorem Captures.renders {f : α → Emit Unit} {k : α → Render String} (h : Captures g q)
    (h' : ∀ a, Renders b (f a) (k a)) : Renders b (g >>= f) (q >>= k) := by
  intro s o
  obtain ⟨ps, hps, htext, hrun⟩ := h' (q s).1 (q s).2 o
  refine ⟨ps, hps, htext, ?_⟩
  show f (g (s.writer o)).1 (g (s.writer o)).2 = _
  rw [h s o, hrun]
  rfl

theorem Captures.bind {f : α → Emit β} {k : α → Render β} (h : Captures g q) (h' : ∀ a, Captures (f a) (k a)) :
    Captures (g >>= f) (q >>= k) := by
  intro s o
  show f (g (s.writer o)).1 (g (s.writer o)).2 = _
  rw [h s o, h' (q s).1 (q s).2 o]
  rfl

theorem captures_pure (a : α) : Captures (pure a) (pure a) := fun _ _ => rfl

theorem captures_ite (p : Prop) [Decidable p] {g' : Emit α} {q' : Render α} (h : Captures g q) (h' : Captures g' q') :
    Captures (if p then g else g') (if p then q else q') := by
  by_cases hp : p
  · rw [if_pos hp, if_pos hp]
    exact h
  · rw [if_neg hp, if_neg hp]
    exact h'

theorem renders_get (h : ∀ e, Renders b (f e) (k e.context)) : Renders b (get >>= f) (get >>= k) :=
  fun s o => h (s.writer o) s o

/-! ### The four ways to read a text off -/

theorem Renders.freshText (h : Renders b m r) : Captures (freshText m) r := by
  intro s o
  obtain ⟨ps, _, htext, hrun⟩ := h s #[]
  show (String.join (m (s.writer #[])).2.output.toList, { (m (s.writer #[])).2 with output := o }) = _
  rw [hrun, htext]
  simp [Context.writer]

theorem takeFrom_writer {s : Context} :
    takeFrom o.size (s.writer (o ++ ps.toArray)) = (String.join ps, s.writer o) := by
  show (String.join ((o ++ ps.toArray).extract o.size (o ++ ps.toArray).size).toList,
    s.writer ((o ++ ps.toArray).extract 0 o.size)) = _
  simp

theorem Renders.tailText (h : Renders b m r) : Captures (tailText m) r := by
  intro s o
  obtain ⟨ps, _, htext, hrun⟩ := h s o
  show takeFrom o.size (m (s.writer o)).2 = _
  rw [hrun, htext]
  exact takeFrom_writer

theorem cutPoint_add {n k : Nat} (h : k ≠ 0) : Emitter.cutPoint n (n + k) = n := if_pos (by omega)

theorem Renders.cutText (h : Renders true m r) : Captures (cutText m) r := by
  intro s o
  obtain ⟨ps, hps, htext, hrun⟩ := h s o
  show takeFrom (Emitter.cutPoint o.size (m (s.writer o)).2.output.size) (m (s.writer o)).2 = _
  have hsize : (o ++ ps.toArray).size = o.size + ps.length := by simp
  rw [hrun, htext]
  show takeFrom (Emitter.cutPoint o.size (o ++ ps.toArray).size) _ = _
  rw [hsize, cutPoint_add fun h => hps rfl (length_eq_zero_iff.1 h)]
  exact takeFrom_writer

theorem Renders.cutTextIfAny (h : Renders b m r) : Captures (cutTextIfAny m) r := by
  intro s o
  obtain ⟨ps, _, htext, hrun⟩ := h s o
  have hsize : (o ++ ps.toArray).size = o.size + ps.length := by simp
  show (if o.size = (m (s.writer o)).2.output.size then pure ""
    else takeFrom (Emitter.cutPoint o.size (m (s.writer o)).2.output.size)) (m (s.writer o)).2 = _
  rw [hrun, htext]
  show (if o.size = (o ++ ps.toArray).size then pure ""
    else takeFrom (Emitter.cutPoint o.size (o ++ ps.toArray).size)) _ = _
  rw [hsize]
  by_cases hps : ps.length = 0
  · rw [if_pos (by omega), length_eq_zero_iff.1 hps, Array.append_empty]
    rfl
  · rw [if_neg (by omega), cutPoint_add hps]
    exact takeFrom_writer

/-! ### Blocks, scopes and classes -/

theorem Renders.deeper (h : Renders b m r) : Renders b (deeper m) (Render.deeper r) := by
  intro s o
  obtain ⟨ps, hps, htext, hrun⟩ := h { s with depth := s.depth + 1 } o
  refine ⟨ps, hps, htext, ?_⟩
  show (fun e : Emitter => ((), { e with depth := e.depth - 1 }))
    (m (Context.writer { s with depth := s.depth + 1 } o)).2 = _
  rw [hrun]
  rfl

theorem Renders.block (h : Renders b m r) (head : String) : Renders true (writeBlock head m) (Render.block head r) :=
  renders_line.append h.deeper.anyway

theorem Renders.withFinals (h : Renders b m r) : Renders b (withFinals m) (Render.withFinals r) := by
  intro s o
  obtain ⟨ps, hps, htext, hrun⟩ := h { s with finals := [] :: s.finals } o
  refine ⟨ps, hps, htext, ?_⟩
  show popFinals (m (Context.writer { s with finals := [] :: s.finals } o)).2 = _
  rw [hrun]
  rfl

theorem Renders.withinClass (h : Renders b m r) (name : String) (params : Option (List String)) :
    Renders b (withinClass name params m) (Render.withinClass name params r) := by
  intro s o
  obtain ⟨ps, hps, htext, hrun⟩ := h
    { s with inClass := true, classStack := name :: s.classStack, typeParams := params.getD s.typeParams } o
  refine ⟨ps, hps, htext, ?_⟩
  show (fun e : Emitter =>
    ((), { e with inClass := s.inClass, classStack := e.classStack.tail, typeParams := s.typeParams }))
    (m (Context.writer
      { s with inClass := true, classStack := name :: s.classStack, typeParams := params.getD s.typeParams } o)).2 = _
  rw [hrun]
  rfl

theorem renders_setFinal (name value : String) : Renders false (setFinal name value) (Render.setFinal name value) := by
  intro s o
  refine ⟨[], by simp, ?_, ?_⟩
  · unfold Render.setFinal
    split <;> rfl
  · unfold setFinal Render.setFinal
    split <;> rfl

theorem renders_ite (p : Prop) [Decidable p] (h : p → Renders b m r) (h' : ¬p → Renders b m' r') :
    Renders b (if p then m else m') (if p then r else r') := by
  by_cases hp : p
  · rw [if_pos hp, if_pos hp]
    exact h hp
  · rw [if_neg hp, if_neg hp]
    exact h' hp

theorem renders_choice (p : Prop) [Decidable p] {φ : α → β} {d : β} {f : β → Emit Unit} {k : β → Render String}
    (h : Captures g q) (h' : ∀ t, Renders b (f t) (k t)) :
    Renders b (if p then g >>= fun a => pure (φ a) >>= f else pure d >>= f)
      (if p then q >>= fun a => pure (φ a) >>= k else pure d >>= k) :=
  renders_ite p (fun _ => h.renders fun a => (captures_pure (φ a)).renders h') fun _ => (captures_pure d).renders h'

theorem renders_each {f : α → Emit Unit} {k : α → Render String} (h : ∀ x, Renders b (f x) (k x)) (xs : List α) :
    Renders false (xs.forM f) (Render.each k xs) := by
  induction xs with
  | nil => exact renders_pure
  | cons x xs ih => exact ((h x).append ih).anyway

end

end Emit

/-! ### Trees whose texts can be read off -/

namespace Node

/-- Whether a node puts at least one piece into the output, for every target and in every context. -/
def writes : Node → Bool
  | missing | module _ | annotationUse .. | rawCode .. | interface .. | parameter .. | typeParameter .. | block _
  | switch .. | case .. | lambda .. | slice .. | enumMember .. | comprehension _ _ _ _ (.other _) _ => false
  | expression value _ => value.isPresent
  | _ => true

mutual

/-- In every place whose text is taken back from the end of the output stands an expression that writes: no slice, no
anonymous function, no block and no missing node. -/
def Legible : Node → Prop
  | missing | rawCode .. | interface .. | signature .. | parameter .. | typeParameter .. | block _ | pass _
  | identifier _ | literal .. | lambda .. | imports _ | slice .. => True
  | module body | classDecl _ body _ _ | dataClass _ _ body _ _ _ _ => AllLegible body
  | annotationUse _ args _ values => AllLegible args ∧ AllLegible values
  | function _ _ none _ annotations => AllLegible annotations
  | function _ _ (some body) _ annotations => AllLegible annotations ∧ AllLegible body
  | expression value _ | returns value _ | raises value _ =>
    (value.isPresent = true → value.writes) ∧ value.Legible
  | conditional c t e => c.Legible ∧ AllLegible t ∧ AllLegible e
  | forLoop clause body => clause.Legible ∧ AllLegible body
  | whileLoop c body => c.writes = true ∧ c.Legible ∧ AllLegible body
  | switch subject cases default => subject.Legible ∧ AllLegible cases ∧ AllLegible default
  | case value body => value.Legible ∧ AllLegible body
  | assignment place value _ _ _ => place.Legible ∧ value.Legible
  | member object _ => object.writes = true ∧ object.Legible
  | collection items _ => AllLegible items
  | call callee arguments => callee.writes = true ∧ callee.Legible ∧ AllWritten arguments
  | argument _ value => value.writes = true ∧ value.Legible
  | logical _ left right | binary _ left right => left.Legible ∧ right.Legible
  | unary _ operand => operand.Legible
  | entry key value => (key.writes = true ∧ key.Legible) ∧ value.writes ∧ value.Legible
  | subscript object index => (object.writes = true ∧ object.Legible) ∧ index.writes ∧ index.Legible
  | comprehension element place source condition _ key =>
    element.Legible ∧ place.Legible ∧ source.Legible ∧ condition.Legible ∧ key.Legible
  | finalDecl place value _ => place.Legible ∧ value.Legible
  | enumMember _ args _ _ => AllLegible args
  | enumDecl _ members body _ _ => AllLegible members ∧ AllLegible body

def AllLegible : List Node → Prop
  | [] => True
  | n :: ns => n.Legible ∧ AllLegible ns

def AllWritten : List Node → Prop
  | [] => True
  | n :: ns => (n.writes = true ∧ n.Legible) ∧ AllWritten ns

end

end Node

open Emit

theorem renders_signature (target : Target) (s : MethodShape) :
    Renders true (writeSignature target s) (Render.signature target s) := by
  refine renders_get fun e => renders_line.append ?_
  refine (renders_write.append ?_).anyway
  exact (renders_line.append renders_line.anyway).deeper.anyway

theorem renders_signatures (target : Target) (methods : List MethodShape) :
    Renders false (writeSignatures target methods) (Render.signatures target methods) := by
  refine renders_each (b := true) ?_ _
  rintro ⟨s, i⟩
  by_cases hi : i = 0
  · subst hi
    exact renders_signature target s
  · simp only [hi, if_false]
    exact renders_write.append (renders_signature target s).anyway

section

variable {b c : Bool} {m m' : Emit Unit} {r r' : Render String}

theorem renders_operator (operator : String) (h : Renders b m r) (h' : Renders c m' r') :
    Renders true (do
      let leftText ← freshText m
      let rightText ← freshText m'
      write ("(" ++ leftText ++ " " ++ operator ++ " " ++ rightText ++ ")"))
      (do
        let leftText ← r
        let rightText ← r'
        return "(" ++ leftText ++ " " ++ operator ++ " " ++ rightText ++ ")") :=
  h.freshText.renders fun _ => h'.freshText.renders fun _ => renders_write

theorem renders_bracketed (opening closing : String) (h : Renders b m r) :
    Renders true (write opening >>= fun _ => m >>= fun _ => write closing) (pure opening ++ (r ++ pure closing)) :=
  renders_write.append (h.append renders_write.anyway).anyway

theorem renders_optional (keyword : String) {n : Node} (hw : n.isPresent → n.writes)
    (h : Renders n.writes m r) :
    Renders true (do if n.isPresent then line (keyword ++ " " ++ (← cutText m) ++ "\n") else line (keyword ++ "\n"))
      (do if n.isPresent then Render.line (keyword ++ " " ++ (← r) ++ "\n") else Render.line (keyword ++ "\n")) := by
  refine renders_ite _ (fun hn => ?_) fun _ => renders_line
  rw [hw hn] at h
  exact h.cutText.renders fun _ => renders_line

theorem renders_pieces (hne : pieces ≠ []) : Renders true (pieces.forM write) (pure (String.join pieces)) := by
  intro s o
  refine ⟨pieces, fun _ => hne, rfl, ?_⟩
  clear hne
  induction pieces generalizing o with
  | nil => exact congrArg (((), s.writer ·)) Array.append_empty.symm
  | cons p ps ih =>
    show (ps.forM write) (s.writer (o.push p)) = _
    rw [ih (o.push p), Array.push_eq_append, Array.append_assoc, ← toArray_cons]
    rfl

theorem literalPieces_ne_nil (value : Scalar) (kind : LiteralKind) : literalPieces value kind ≠ [] := by
  unfold literalPieces
  split
  · simp
  · cases kind <;> simp
    split <;> simp

theorem renders_optionally (p : Prop) [Decidable p] (h : Renders b m r) (h' : Renders c m' r') :
    Renders c (if p then m >>= fun _ => m' else m') ((if p then r else pure "") ++ r') := by
  by_cases hp : p
  · rw [if_pos hp, if_pos hp]
    exact h.anyway.before h'
  · rw [if_neg hp, if_neg hp]
    intro s o
    obtain ⟨ps, hps, htext, hrun⟩ := h' s o
    exact ⟨ps, hps, (String.empty_append).trans htext, hrun⟩

theorem renders_unless (p : Prop) [Decidable p] (h : Renders b m r) (h' : Renders c m' r') :
    Renders c (if p then m' else m >>= fun _ => m') ((if p then pure "" else r) ++ r') := by
  have hnot := renders_optionally (¬p) h h'
  rwa [ite_not, ite_not] at hnot

theorem renders_class (target : Target) (head : ClassHead) (params : List Node) (h : Renders b m r) :
    Renders true (classFrame target params head m) (Render.classFrame target params head r) := by
  refine (Renders.withFinals ?_).withinClass _ _
  exact renders_optionally _ renders_write (renders_write.append h.deeper.anyway)

theorem renders_attributes (target : Target) (names : List String) :
    Renders false (writeAttributes target names) (Render.attributes target names) := by
  have hnames := (renders_each (b := true) (fun a => renders_line (t := "cdef public object " ++ a ++ "\n"))
    names).append (renders_write (t := "\n")).anyway
  exact renders_ite _ (fun _ => hnames.anyway) fun _ => renders_pure

theorem renders_dataClass (name : String) (fields params : List Node) (bases : List String)
    (h : Renders b m r) :
    Renders true (dataClassFrame name fields params bases m) (Render.dataClassFrame name fields params bases r) := by
  have hfields := (renders_each (b := true) (fun f : Node => renders_line (t := f.parameterText .python [] ++ "\n"))
    fields).append h.anyway
  refine (renders_write.append ?_).withinClass _ _
  exact (renders_write.append (renders_line.append hfields.anyway).deeper.anyway).anyway

theorem renders_enum (name : String) (h : Renders b m r) (h' : Renders c m' r') :
    Renders true (enumFrame name m m') (Render.enumFrame name r r') := by
  refine (renders_write.append ?_).withinClass _ _
  exact (renders_line.append (h.append h'.anyway).anyway).deeper.anyway

theorem renders_function (target : Target) (head : FunctionHead) (params : List Node) (h : Captures g q)
    (h' : ∀ e, Renders b (f e) (k e.context)) :
    Renders true (functionFrame target params head g f) (Render.functionFrame target params head q k) := by
  refine renders_get fun e => Renders.withFinals (h.renders fun _ => ?_)
  exact (renders_each (fun _ => renders_line) _).before ((h' e).block _)

theorem renders_functionBody (isAbstract : Bool) (h : Renders b m r) :
    Renders false
      (if isAbstract then do
        line "\"\"\"Abstract method.\"\"\"\n"
        line "pass\n"
      else m)
      (if isAbstract then Render.line "\"\"\"Abstract method.\"\"\"\n" ++ Render.line "pass\n" else r) :=
  renders_ite _ (fun _ => (renders_line.append renders_line.anyway).anyway) fun _ => h.anyway

theorem renders_writeLine (h : Renders true m r) :
    Renders true (do writeLine (← cutText m)) (do Render.line (← r) ++ pure "\n") :=
  h.cutText.renders fun _ => renders_line.append renders_write.anyway

end

theorem emit_forLoop_of_ne (h : operator ≠ "in") :
    (Node.forLoop (.binary operator left right) body).emit target = (do
      line "for "
      (do write ((← freshText ((Node.binary operator left right).emit target)) ++ ":\n"))
      deeper (Node.emitAll target body)) := by
  rw [Node.emit]
  split
  · simp_all
  · rfl

theorem render_forLoop_of_ne (h : operator ≠ "in") :
    (Node.forLoop (.binary operator left right) body).render target =
      Render.line "for " ++ ((do return (← (Node.binary operator left right).render target) ++ ":\n") ++
        Render.deeper (Node.renderAll target body)) :=
  congrArg (fun clause => Render.line "for " ++ (clause ++ Render.deeper (Node.renderAll target body))) (if_neg h)

mutual

/-- The writer makes the text of a legible node. -/
theorem renders_node : ∀ n : Node, n.Legible → Renders n.writes (n.emit target) (n.render target)
  | .missing, _ | .module _, _ | .annotationUse .., _ | .parameter .., _ | .typeParameter .., _ | .block _, _
  | .case .., _ | .lambda .., _ | .slice .., _ | .enumMember .., _ => renders_pure
  | .rawCode code _, _ => by
    refine renders_each (b := true) (fun l => ?_) _
    split
    · exact renders_write
    · exact renders_line
  | .interface name methods bases _ _, _ => by
    cases target with
    | cython => exact renders_pure
    | python =>
      refine (renders_write.append ?_).anyway
      refine Renders.append ?_ renders_write.anyway
      refine (renders_line.append ?_).deeper.anyway
      match methods with
      | none | some [] => exact renders_line.anyway
      | some (m :: ms) => exact (renders_write.append (renders_signatures .python _)).anyway
  | .signature name params result _ _, _ => renders_signature target _
  | .classDecl head [] params _, _ => renders_class target head params (renders_line (t := "pass\n"))
  | .classDecl head (n :: ns) params _, h =>
    renders_class target head params <| renders_line.append <| ((renders_attributes target _).append
      ((renders_node n h.1).append (renders_following "\n" ns h.2)).anyway).anyway
  | .dataClass name fields [] params bases _ _, _ =>
    renders_dataClass name fields params bases <|
      renders_ite (fields.isEmpty = true) (fun _ => renders_line.anyway) fun _ => renders_pure
  | .dataClass name fields (n :: ns) params bases _ _, h =>
    renders_dataClass name fields params bases <| renders_unless (fields.isEmpty = true) (renders_write (t := "\n")) <|
      ((renders_node n h.1).append (renders_following "\n" ns h.2)).anyway
  | .enumDecl name members [] _ _, h =>
    renders_enum name (renders_members members h.1) <|
      renders_ite (members.isEmpty = true) (fun _ => renders_line.anyway) fun _ => renders_pure
  | .enumDecl name members (n :: ns) _ _, h =>
    renders_enum name (renders_members members h.1) <|
      renders_unless (members.isEmpty = true) (renders_write (t := "\n")) <|
        ((renders_node n h.2.1).append (renders_following "\n" ns h.2.2)).anyway
  | .function head params none _ annotations, h =>
    renders_function target head params (captures_decoratorTexts annotations h) fun _ =>
      renders_functionBody head.isAbstract renders_line
  | .function head params (some []) _ annotations, h =>
    renders_function target head params (captures_decoratorTexts annotations h.1) fun _ =>
      renders_functionBody head.isAbstract renders_line
  | .function head params (some (n :: ns)) _ annotations, h =>
    renders_function target head params (captures_decoratorTexts annotations h.1) fun _ =>
      renders_functionBody head.isAbstract <| renders_line.append <|
        ((renders_node n h.2.1).append (renders_all ns h.2.2)).anyway
  | .expression value _, h => by
    have hvalue := @renders_node target value h.2
    have hplain : value.isPresent →
        Renders true (do writeLine (← cutText (value.emit target)))
          (do Render.line (← value.render target) ++ pure "\n") := by
      intro hp
      rw [h.1 hp] at hvalue
      exact renders_writeLine hvalue
    cases value with
    | missing => exact renders_get fun _ => renders_pure
    | assignment place assigned =>
      cases place with
      | identifier =>
        refine renders_get fun e => ?_
        refine renders_ite _ (fun _ => hplain rfl) fun _ => ?_
        refine (renders_node assigned h.2.2).tailText.renders fun _ => ?_
        exact renders_line.append renders_write.anyway
      | _ => exact renders_get fun _ => hplain rfl
    | _ => exact renders_get fun _ => hplain rfl
  | .pass _, _ => renders_line
  | .returns value _, h => renders_optional "return" h.1 (renders_node value h.2)
  | .raises exception _, h => renders_optional "raise" h.1 (renders_node exception h.2)
  | .conditional c t e, h => by
    refine (renders_node c h.1).freshText.renders fun _ => ?_
    exact ((renders_all t h.2.1).block _).append (renders_else e h.2.2)
  | .forLoop clause body, h => by
    have hwhole := (@renders_node target clause h.1).freshText.renders fun text => renders_write (t := text ++ ":\n")
    have hbody := (@renders_all target body h.2).deeper
    have hplain := (renders_line (t := "for ")).append (hwhole.append hbody).anyway
    cases clause with
    | binary operator item source =>
      have hhead := (@renders_node target item h.1.1).freshText.renders fun itemText =>
        (@renders_node target source h.1.2).freshText.renders fun sourceText =>
          renders_write (t := itemText ++ " in " ++ sourceText ++ ":\n")
      have hin := (renders_line (t := "for ")).append (hhead.append hbody).anyway
      by_cases hop : operator = "in"
      · subst hop
        exact hin
      · rw [emit_forLoop_of_ne hop, render_forLoop_of_ne hop]
        exact hplain
    | _ => exact hplain
  | .whileLoop c body, h => by
    have hhead := ((@renders_node target c h.2.1).sure h.1).cutText.renders fun text =>
        renders_write (t := text ++ ":\n")
    exact renders_line.append (hhead.append (renders_all body h.2.2).deeper).anyway
  | .switch subject cases [], h =>
    (renders_node subject h.1).freshText.renders fun _ =>
      (renders_cases _ "if " cases h.2.1).append renders_pure
  | .switch subject cases (n :: ns), h =>
    (renders_node subject h.1).freshText.renders fun _ =>
      (renders_cases _ "if " cases h.2.1).append <|
        (((renders_node n h.2.2.1).append (renders_all ns h.2.2.2)).block _).anyway
  | .assignment place value operator type _, h => by
    refine (renders_node place h.1).tailText.renders fun _ => ?_
    cases type with
    | none => exact (renders_node value h.2).tailText.renders fun _ => renders_write
    | some =>
      refine renders_get fun _ => renders_ite _ (fun _ => ?_) fun _ => renders_write
      exact (renders_node value h.2).tailText.renders fun _ => renders_write
  | .identifier name, _ => renders_get fun e => renders_write
  | .member object name, h => ((renders_node object h.2).sure h.1).cutText.renders fun _ => renders_write
  | .literal value kind, _ => renders_pieces (literalPieces_ne_nil value kind)
  | .collection items kind, h => by
    have hitems := @renders_separated target items h
    cases kind with
    | tuple =>
      refine renders_write.append (hitems.append ?_)
      exact renders_optionally _ renders_write renders_write.anyway
    | list | dict => exact renders_bracketed _ _ hitems
    | set => exact renders_ite _ (fun _ => renders_write) fun _ => renders_bracketed _ _ hitems
    | _ => exact renders_write
  | .call callee arguments, h => by
    have harguments (text : String) := (@captures_cutTexts target arguments h.2.2).renders fun texts =>
      renders_write (t := text ++ "(" ++ String.intercalate ", " texts ++ ")")
    exact renders_ite _ (fun _ => (captures_pure "super().__init__").renders harguments) fun _ =>
      ((renders_node callee h.2.1).sure h.1).cutText.renders harguments
  | .argument name value, h => by
    refine ((renders_node value h.2).sure h.1).cutText.renders fun _ => ?_
    cases name <;> exact renders_write
  | .logical operator left right, h | .binary operator left right, h =>
    renders_operator operator (renders_node left h.1) (renders_node right h.2)
  | .unary operator operand, h => (renders_node operand h).freshText.renders fun _ => renders_write
  | .imports head, _ => renders_write
  | .entry first second, h | .subscript first second, h =>
    ((renders_node first h.1.2).sure h.1.1).cutText.renders fun _ =>
      ((renders_node second h.2.2).sure h.2.1).cutText.renders fun _ => renders_write
  | .comprehension element place source condition kind key, h => by
    refine (renders_node element h.1).freshText.renders fun _ => ?_
    refine renders_choice _ (renders_node key h.2.2.2.2).freshText fun _ => ?_
    refine (renders_node place h.2.1).freshText.renders fun _ =>
      (renders_node source h.2.2.1).freshText.renders fun _ => ?_
    refine renders_choice _ (renders_node condition h.2.2.2.1).freshText fun _ => ?_
    cases kind with
    | other => exact renders_pure
    | _ => exact renders_write
  | .finalDecl place value type, h => by
    have hplace := @renders_node target place h.1
    have hvalue := @renders_node target value h.2
    cases place with
    | identifier name =>
      refine hplace.freshText.renders fun _ => hvalue.freshText.renders fun _ => ?_
      exact renders_line.append (renders_line.append (renders_setFinal name _)).anyway
    | _ =>
      refine hplace.freshText.renders fun _ => hvalue.freshText.renders fun _ => ?_
      exact renders_line.append (renders_line.append renders_pure).anyway

theorem renders_all : ∀ ns : List Node, Node.AllLegible ns →
    Renders false (Node.emitAll target ns) (Node.renderAll target ns)
  | [], _ => renders_pure
  | n :: ns, h => ((renders_node n h.1).append (renders_all ns h.2)).anyway

theorem renders_following (separator : String) : ∀ ns : List Node, Node.AllLegible ns →
    Renders false (Node.emitFollowing target separator ns) (Node.renderFollowing target separator ns)
  | [], _ => renders_pure
  | n :: ns, h =>
    (renders_write.append
      ((renders_node n h.1).append (renders_following separator ns h.2)).anyway).anyway

theorem renders_separated : ∀ ns : List Node, Node.AllLegible ns →
    Renders false (Node.emitSeparated target ns) (Node.renderSeparated target ns)
  | [], _ => renders_pure
  | n :: ns, h => ((renders_node n h.1).append (renders_following ", " ns h.2)).anyway

theorem renders_else : ∀ ns : List Node, Node.AllLegible ns →
    Renders false (Node.emitElse target ns) (Node.renderElse target ns)
  | [], _ => renders_pure
  | n :: ns, h => by
    have hblock := ((@renders_node target n h.1).append (@renders_all target ns h.2)).block "else:\n"
    cases ns with
    | cons => cases n <;> exact hblock.anyway
    | nil =>
      cases n with
      | conditional c t e =>
        refine (renders_node c h.1.1).freshText.renders fun _ => ?_
        exact (((renders_all t h.1.2.1).block _).append (renders_else e h.1.2.2)).anyway
      | _ => exact hblock.anyway

theorem renders_cases (subject keyword : String) : ∀ ns : List Node, Node.AllLegible ns →
    Renders false (Node.emitCases target subject keyword ns) (Node.renderCases target subject keyword ns)
  | [], _ => renders_pure
  | n :: cases, h => by
    cases n with
    | case value body =>
      have hhead := (@renders_node target value h.1.1).freshText.renders fun text =>
        renders_write (t := subject ++ " == " ++ text ++ ":")
      have hbody := (@renders_all target body h.1.2).deeper.append (@renders_cases target subject "elif " cases h.2)
      exact (renders_line.append (hhead.append (renders_write.append hbody).anyway).anyway).anyway
    | _ => exact renders_cases subject keyword cases h.2

theorem renders_members : ∀ ns : List Node, Node.AllLegible ns →
    Renders false (Node.emitMembers target ns) (Node.renderMembers target ns)
  | [], _ => renders_pure
  | n :: members, h => by
    cases n with
    | enumMember name args =>
      cases args with
      | nil => exact (renders_line.append (renders_members members h.2)).anyway
      | cons arg args =>
        have hargs := (@captures_freshTexts target (arg :: args) h.1).renders fun texts =>
          renders_line (t := name ++ " = (" ++ String.intercalate ", " texts ++ ")\n")
        exact (hargs.append (renders_members members h.2)).anyway
    | _ => exact renders_members members h.2

theorem captures_cutTexts : ∀ ns : List Node, Node.AllWritten ns →
    Captures (Node.cutTexts target ns) (Node.renderList target ns)
  | [], _ => captures_pure []
  | n :: ns, h => ((renders_node n h.1.2).sure h.1.1).cutText.bind fun _ =>
    (captures_cutTexts ns h.2).bind fun _ => captures_pure _

theorem captures_freshTexts : ∀ ns : List Node, Node.AllLegible ns →
    Captures (Node.freshTexts target ns) (Node.renderList target ns)
  | [], _ => captures_pure []
  | n :: ns, h =>
    (renders_node n h.1).freshText.bind fun _ =>
      (captures_freshTexts ns h.2).bind fun _ => captures_pure _

theorem captures_argumentTexts : ∀ ns : List Node, Node.AllLegible ns →
    Captures (Node.argumentTexts target ns) (Node.renderList target ns)
  | [], _ => captures_pure []
  | n :: ns, h =>
    (renders_node n h.1).cutTextIfAny.bind fun _ =>
      (captures_argumentTexts ns h.2).bind fun _ => captures_pure _

theorem captures_decoratorTexts : ∀ ns : List Node, Node.AllLegible ns →
    Captures (Node.decoratorTexts target ns) (Node.renderDecorators target ns)
  | [], _ => captures_pure []
  | n :: ns, h => by
    have hrest := @captures_decoratorTexts target ns h.2
    refine captures_ite (n.isRuntime = true) ?_ hrest
    cases n with
    | annotationUse head args keys values =>
      refine Captures.bind (captures_ite (head.isCall = true) ?_ (captures_pure _)) fun _ =>
        hrest.bind fun _ => captures_pure _
      exact (captures_argumentTexts args h.1.1).bind fun _ =>
        (captures_argumentTexts values h.1.2).bind fun _ => captures_pure _
    | _ => exact (captures_pure "").bind fun _ => hrest.bind fun _ => captures_pure _

end

/-- The writer refines the renderer: a legible node adds pieces that make up its text, and if it is sure to write, all
four ways to read its text off give that text and leave the output as it was. -/
theorem emit_refines_render (target : Target) (n : Node) (h : n.Legible) (e : Emitter) :
    (∃ pieces : List String, String.join pieces = (n.render target e.context).1 ∧
      n.emit target e = ((), (n.render target e.context).2.writer (e.output ++ pieces.toArray))) ∧
    (n.writes = true → ∀ textOf ∈ [freshText, tailText, cutTextIfAny, cutText],
      textOf (n.emit target) e = ((n.render target e.context).1, (n.render target e.context).2.writer e.output)) := by
  have hnode := @renders_node target n h
  refine ⟨?_, fun hwrites => ?_⟩
  · obtain ⟨pieces, _, htext, hrun⟩ := hnode e.context e.output
    exact ⟨pieces, htext.symm, hrun⟩
  · rw [hwrites] at hnode
    simp only [List.mem_cons, List.not_mem_nil, or_false, forall_eq_or_imp, forall_eq]
    exact ⟨hnode.freshText e.context e.output, hnode.tailText e.context e.output,
      hnode.cutTextIfAny e.context e.output, hnode.cutText e.context e.output⟩

/-- A conditional whose condition cuts the text of an index, of its object and of the argument of a call. -/
def guardedReturn : Node :=
  .conditional
    (.binary ">" (.subscript (.member (.identifier "grid") "rows") (.call (.identifier "pick")
      [.argument (some "at") (.identifier "limit")])) (.literal (.integer 2) .number))
    [.returns (.unary "-" (.identifier "limit")) true] []

theorem emit_refines_render_guardedReturn :
    let e : Emitter := { output := #["x\n"], depth := 1, finals := [[("limit", "40")]] }
    let text := "    if (grid.rows[pick(at=40)] > 2):\n        return (- 40)\n"
    guardedReturn.Legible ∧
    (∃ pieces : List String, String.join pieces = text ∧
      guardedReturn.emit .python e = ((), { e with output := e.output ++ pieces.toArray })) ∧
    ∀ textOf ∈ [freshText, tailText, cutTextIfAny, cutText], textOf (guardedReturn.emit .python) e = (text, e) := by
  intro e text
  have hlegible : guardedReturn.Legible := by
    simp [guardedReturn, Node.Legible, Node.AllLegible, Node.AllWritten, Node.writes]
  have htext : (guardedReturn.render .python e.context).1 = text := by decide +kernel
  have hcontext : (guardedReturn.render .python e.context).2 = e.context := rfl
  have h := emit_refines_render .python guardedReturn hlegible e
  rw [htext, hcontext] at h
  exact ⟨hlegible, h.1, h.2 rfl⟩

end BraceLang
