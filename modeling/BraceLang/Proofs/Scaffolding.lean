import BraceLang.Proofs.DeclarationPlaces
import BraceLang.Proofs.KeptText
import BraceLang.Proofs.ProgramText

/-!
# The names that the writer introduces

The writer puts names of its own into a text: decorators of functions and classes, bases of classes, the values of
enum members.
-/

namespace BraceLang

open List Emit

variable {ts us : List String} {m m' : Emit Unit} {target : Target} {body : List Node} {k : Emitter → Emit Unit}

/-- A name that the writer introduces. -/
inductive Scaffold where
  | annotations
  | abc
  | abstractMethod
  | protocol
  | final
  | generic
  | typeVar
  | typeVariable (name : String)
  | dispatch
  | dataClass
  | enum
  | auto
  deriving DecidableEq, Repr

def Scaffold.text : Scaffold → String
  | annotations => "annotations"
  | abc => "ABC"
  | abstractMethod => "abstractmethod"
  | protocol => "Protocol"
  | final => "final"
  | generic => "Generic"
  | typeVar => "TypeVar"
  | typeVariable name => name
  | dispatch => "dispatch"
  | dataClass => "dataclass"
  | enum => "Enum"
  | auto => "auto"

/-- A line, without its indentation, and the names that the writer introduces in it. -/
structure Scaffold.Use where
  names : List Scaffold
  line : String
  deriving DecidableEq, Repr

def genericScaffold (params : List Node) : List Scaffold :=
  if params.isEmpty then [] else .generic :: params.map fun p => .typeVariable p.name

namespace Node

/-- The lines with names of the writer that are written for a node itself. -/
def scaffolding (target : Target) : Node → List Scaffold.Use
  | interface name _ bases _ _ =>
    if target.isCompiled then [] else
      [⟨[.protocol], "class " ++ name ++ "(" ++ String.intercalate ", " (bases ++ ["Protocol"]) ++ "):\n"⟩]
  | classDecl head _ params _ =>
    if target.isCompiled then [] else
      let isBare := params.isEmpty && head.bases.isEmpty && head.interfaces.isEmpty
      (if head.isFinal then [⟨[.final], "@final\n"⟩] else []) ++
        [⟨genericScaffold params ++ (if head.isAbstract && isBare then [.abc] else []),
          "class " ++ head.name ++ basesText (classBaseNames target head params) ++ ":\n"⟩]
  | dataClass name _ _ params bases _ _ =>
    [⟨[.dataClass], "@dataclass\n"⟩,
      ⟨genericScaffold params, "class " ++ name ++ basesText (genericBase params ++ bases) ++ ":\n"⟩]
  | enumDecl name _ _ _ _ => [⟨[.enum], "class " ++ name ++ "(Enum):\n"⟩]
  | enumMember name args _ _ => if args.isEmpty then [⟨[.auto], name ++ " = auto()\n"⟩] else []
  | function head _ _ _ _ =>
    (if target.isCompiled then [] else
      (if head.isAbstract then [⟨[.abstractMethod], "@abstractmethod\n"⟩] else []) ++
      (if head.isFinal then [⟨[.final], "@final\n"⟩] else [])) ++
    (head.decorators.filter isDispatch).map fun d => ⟨[.dispatch], d ++ "\n"⟩
  | _ => []

/-- The lines with names of the writer in statements of a program, in their order. -/
def allScaffolding (target : Target) (body : List Node) : List Scaffold.Use :=
  body.flatMap fun n => n.scaffolding target ++ n.enumMembers.flatMap (scaffolding target) ++
    n.classBody.flatMap (scaffolding target)

end Node

/-! ### Lines in their order -/

/-- The new text has the old one in it and, behind it, the others in their order. -/
def Followed (old : String) : List String → String → Prop
  | [], new => Stretch old new
  | t :: ts, new => ∃ between, Followed (old ++ between ++ t) ts new

namespace Followed

variable {old older mid new newer : String}

theorem of_stretch (h : Stretch older old) (h' : Followed old ts new) : Followed older ts new := by
  induction ts generalizing older old with
  | nil => exact h.trans h'
  | cons t ts ih =>
    obtain ⟨between, h'⟩ := h'
    obtain ⟨before, after, rfl⟩ := h
    -- what stood behind the older text counts as text between
    refine ⟨after ++ between, ih ⟨before, "", ?_⟩ h'⟩
    simp only [String.append_assoc, String.append_empty]

theorem append (h : Followed old ts mid) (h' : Followed mid us new) : Followed old (ts ++ us) new := by
  induction ts generalizing old with
  | nil => exact of_stretch h h'
  | cons t ts ih =>
    obtain ⟨between, h⟩ := h
    exact ⟨between, ih h⟩

theorem sublist (h : Followed old ts new) (hs : us.Sublist ts) : Followed old us new := by
  induction hs generalizing old with
  | slnil => exact h
  | cons t _ ih =>
    obtain ⟨between, h⟩ := h
    exact of_stretch (((Stretch.refl old).append between).append t) (ih h)
  | cons_cons t _ ih =>
    obtain ⟨between, h⟩ := h
    exact ⟨between, ih h⟩

end Followed

namespace Emit

/-- The action writes texts behind all that has been written, in their order and perhaps with others between them. -/
def Shows (ts : List String) (m : Emit Unit) : Prop :=
  ∀ e : Emitter, Followed (String.join e.pieces) ts (String.join (m e).2.pieces)

section

variable {α : Type} {s : String}

theorem shows_write : Shows [s] (write s) := by
  intro e
  have hpieces : (write s e).2.pieces = e.pieces ++ [s] := Array.toList_push
  have hjoin : String.join (write s e).2.pieces = String.join e.pieces ++ "" ++ s := by
    rw [hpieces, String.join_append, String.append_empty]
    simp
  exact ⟨"", hjoin ▸ Stretch.refl _⟩

theorem shows_line : Shows [s] (line s) := by
  intro e
  have hpieces : (line s e).2.pieces = e.pieces ++ [e.indented s] := Array.toList_push
  have hjoin : String.join (line s e).2.pieces = String.join e.pieces ++ e.indented "" ++ s := by
    rw [hpieces, String.join_append]
    simp [Emitter.indented, String.append_assoc]
  exact ⟨e.indented "", hjoin ▸ Stretch.refl _⟩

theorem Settles.shows (h : Settles [] m) : Shows [] m := fun e => (h.keeps e).stretch

theorem Shows.andThen (h : Shows ts m) (h' : Shows us m') : Shows (ts ++ us) (m >>= fun _ => m') :=
  fun e => (h e).append (h' (m e).2)

theorem Shows.sublist (h : Shows ts m) (hs : us.Sublist ts) : Shows us m := fun e => (h e).sublist hs

theorem Settles.before (h : Settles [] m) (h' : Shows ts m') : Shows ts (m >>= fun _ => m') := h.shows.andThen h'

theorem Shows.settled (h : Shows ts m) (h' : Settles [] m') : Shows ts (m >>= fun _ => m') :=
  append_nil ts ▸ h.andThen h'.shows

theorem Lifts.shows {k : α → Emit Unit} (h : Lifts g fun _ => []) (h' : ∀ a, Shows ts (k a)) : Shows ts (g >>= k) := by
  intro e
  rcases h.keeps e with hkept | ⟨-, _, hnil, -⟩
  · exact (h' (g e).1 (g e).2).of_stretch hkept.stretch
  · cases hnil

theorem shows_get (h : ∀ e, Shows ts (k e)) : Shows ts (get >>= k) := fun e => h e e

theorem shows_ite (p : Prop) [Decidable p] (h : p → Shows ts m) (h' : ¬p → Shows ts m') :
    Shows ts (if p then m else m') := by
  by_cases hp : p
  · rw [if_pos hp]
    exact h hp
  · rw [if_neg hp]
    exact h' hp

theorem shows_lines (ds : List String) : Shows (ds.map (· ++ "\n")) (ds.forM fun d => line (d ++ "\n")) := by
  induction ds with
  | nil => exact settles_pure.shows
  | cons d ds ih => exact shows_line.andThen ih

theorem Shows.deeper (h : Shows ts m) : Shows ts (deeper m) := fun e => h { e with depth := e.depth + 1 }

theorem Shows.withFinals (h : Shows ts m) : Shows ts (withFinals m) := fun e => h { e with finals := [] :: e.finals }

theorem Shows.withinClass (h : Shows ts m) (name : String) (params : Option (List String)) :
    Shows ts (withinClass name params m) := fun e =>
  h { e with inClass := true, classStack := name :: e.classStack, typeParams := params.getD e.typeParams }

end

/-! ### Blocks -/

/-- The action writes the statements among other things: what they show it shows too, in their order. -/
def Holds (target : Target) (body : List Node) (m : Emit Unit) : Prop :=
  ∀ f : Node → List String, (∀ n ∈ body, Shows (f n) (n.emit target)) → Shows (body.flatMap f) m

section

theorem Settles.holdsNone (h : Settles [] m) : Holds target [] m := fun _ _ => h.shows

theorem Settles.holds (h : Settles [] m) (h' : Holds target body m') : Holds target body (m >>= fun _ => m') :=
  fun f hf => h.before (h' f hf)

theorem holds_ite (p : Prop) [Decidable p] (h : Holds target body m) (h' : Holds target body m') :
    Holds target body (if p then m else m') :=
  fun f hf => shows_ite p (fun _ => h f hf) fun _ => h' f hf

theorem holds_following (separator : String) (ns : List Node) :
    Holds target ns (Node.emitFollowing target separator ns) := by
  intro f hf
  induction ns with
  | nil => exact settles_pure.shows
  | cons n ns ih =>
    obtain ⟨hn, hns⟩ := forall_mem_cons.1 hf
    exact settles_piece.before (hn.andThen (ih hns))

theorem holds_statements (n : Node) (ns : List Node) :
    Holds target (n :: ns) (n.emit target >>= fun _ => Node.emitFollowing target "\n" ns) := by
  intro f hf
  obtain ⟨hn, hns⟩ := forall_mem_cons.1 hf
  exact hn.andThen (holds_following "\n" ns f hns)

theorem exists_emit_classDecl (target : Target) (head : ClassHead) (body params annotations : List Node) :
    ∃ block, Holds target body block ∧ (Node.classDecl head body params annotations).emit target =
      classFrame target params head block := by
  cases body with
  | nil => exact ⟨_, settles_ownLine.holdsNone, rfl⟩
  | cons n ns =>
    have hbody : Holds target (n :: ns) _ := holds_statements n ns
    exact ⟨_, settles_ownLine.holds ((settles_attributes target _).holds hbody), rfl⟩

theorem exists_emit_dataClass (target : Target) (name : String) (fields body params : List Node) (bases : List String)
    (annotations : List Node) (p : Position) :
    ∃ block, Holds target body block ∧ (Node.dataClass name fields body params bases annotations p).emit target =
      dataClassFrame name fields params bases block := by
  cases body with
  | nil => exact ⟨_, (settles_ite _ settles_ownLine settles_pure).holdsNone, rfl⟩
  | cons n ns =>
    have hbody : Holds target (n :: ns) _ := holds_statements n ns
    exact ⟨_, holds_ite _ hbody (settles_piece.holds hbody), rfl⟩

theorem exists_emit_enumDecl (target : Target) (name : String) (members body annotations : List Node) (p : Position) :
    ∃ block, Holds target body block ∧ (Node.enumDecl name members body annotations p).emit target =
      enumFrame name (Node.emitMembers target members) block := by
  cases body with
  | nil => exact ⟨_, (settles_ite _ settles_ownLine settles_pure).holdsNone, rfl⟩
  | cons n ns =>
    have hbody : Holds target (n :: ns) _ := holds_statements n ns
    exact ⟨_, holds_ite _ hbody (settles_piece.holds hbody), rfl⟩

theorem exists_emit_function (target : Target) (head : FunctionHead) (params : List Node) (body : Option (List Node))
    (typeParams annotations : List Node) :
    ∃ block : Emitter → Emit Unit, (∀ e, Settles [] (block e)) ∧
      (Node.function head params body typeParams annotations).emit target =
        functionFrame target params head (Node.decoratorTexts target annotations) block := by
  rcases body with _ | _ | ⟨n, ns⟩
  · exact ⟨_, fun _ => settles_functionBody head.isAbstract settles_ownLine, rfl⟩
  · exact ⟨_, fun _ => settles_functionBody head.isAbstract settles_ownLine, rfl⟩
  · exact ⟨_, fun _ => settles_functionBody head.isAbstract <| settles_ownLine.andThen <|
      (settles_node n).andThen (settles_all ns), rfl⟩

end

/-! ### The lines of a node -/

section

variable {n : Node} {f g : Node → List String}

def scaffoldLines (target : Target) (n : Node) : List String := (n.scaffolding target).map Scaffold.Use.line

theorem shows_emitMembers (members : List Node) (h : ∀ n ∈ members, n.isEnumMember) :
    Shows (members.flatMap (scaffoldLines target)) (Node.emitMembers target members) := by
  induction members with
  | nil => exact settles_pure.shows
  | cons n ns ih =>
    obtain ⟨hn, hns⟩ := forall_mem_cons.1 h
    have hrest := ih hns
    cases n with
    | enumMember name args =>
      cases args with
      | nil => exact shows_line.andThen hrest
      | cons arg args => exact (lifts_freshTexts (arg :: args)).shows fun _ => settles_ownLine.before hrest
    | _ => cases hn

theorem sublist_scaffoldLines (target : Target) (head : FunctionHead) (params : List Node) (body : Option (List Node))
    (typeParams annotations : List Node) (decorators : List String) :
    (scaffoldLines target (.function head params body typeParams annotations)).Sublist
      ((decorators ++ head.modifierDecorators target ++ head.decorators).map (· ++ "\n")) := by
  have hmodifiers : ((if target.isCompiled then [] else
      (if head.isAbstract then [⟨[.abstractMethod], "@abstractmethod\n"⟩] else []) ++
      (if head.isFinal then [⟨[.final], "@final\n"⟩] else []) : List Scaffold.Use).map Scaffold.Use.line).Sublist
      ((head.modifierDecorators target).map (· ++ "\n")) := by
    unfold FunctionHead.modifierDecorators
    cases target.isCompiled <;> cases head.isStatic <;> cases head.isAbstract <;> cases head.isFinal <;> decide
  have hdispatch : ((head.decorators.filter Node.isDispatch).map fun d => d ++ "\n").Sublist
      (head.decorators.map (· ++ "\n")) := List.filter_sublist.map _
  -- the decorators of annotations come first and are not of the writer
  have hlines := (hmodifiers.append hdispatch).trans (sublist_append_right (decorators.map (· ++ "\n")) _)
  simpa [scaffoldLines, Node.scaffolding, map_append, List.append_assoc, Function.comp_def] using hlines

theorem shows_function (target : Target) (head : FunctionHead) (params : List Node) (body : Option (List Node))
    (typeParams annotations : List Node) :
    Shows (scaffoldLines target (.function head params body typeParams annotations))
      ((Node.function head params body typeParams annotations).emit target) := by
  obtain ⟨block, hblock, hemit⟩ := exists_emit_function target head params body typeParams annotations
  rw [hemit]
  refine shows_get fun e => Shows.withFinals ((lifts_decoratorTexts annotations).shows fun decorators => ?_)
  have hlines := (shows_lines _).sublist
    (sublist_scaffoldLines target head params body typeParams annotations decorators)
  exact hlines.settled (settles_ownLine.andThen (hblock e).deeper)

theorem shows_classHead (target : Target) (head : ClassHead) (body params annotations : List Node)
    (h : Shows ts block) :
    Shows (scaffoldLines target (.classDecl head body params annotations) ++ ts)
      (classFrame target params head block) := by
  have hline (text : String) : Shows (text :: ts) (write text >>= fun _ => deeper block) := shows_write.andThen h.deeper
  obtain ⟨name, bases, interfaces, isAbstract, isFinal, flags, position⟩ := head
  refine Shows.withinClass (Shows.withFinals ?_) _ _
  cases target with
  | cython => cases isFinal <;> exact settles_piece.before h.deeper
  | python =>
    cases isFinal with
    | true => exact shows_write.andThen (hline _)
    | false => exact hline _

/-- A node shows its lines, and what the members and the statements in it show. -/
theorem shows_node (hn : n.isEnumMember = false)
    (hg : Shows (n.enumMembers.flatMap g) (Node.emitMembers target n.enumMembers))
    (hf : ∀ c ∈ n.classBody, Shows (f c) (c.emit target)) :
    Shows (scaffoldLines target n ++ n.enumMembers.flatMap g ++ n.classBody.flatMap f) (n.emit target) := by
  cases n with
  | interface name methods =>
    cases target with
    | cython => exact settles_pure.shows
    | python =>
      refine shows_write.andThen (Settles.shows (Settles.andThen (settles_ownLine.andThen ?_).deeper settles_piece))
      rcases methods with _ | _ | ⟨m, ms⟩
      · exact settles_ownLine
      · exact settles_ownLine
      · exact settles_piece.andThen (settles_signatures .python _)
  | classDecl head body params annotations =>
    obtain ⟨block, hblock, hemit⟩ := exists_emit_classDecl target head body params annotations
    rw [hemit]
    have hhead := shows_classHead target head body params annotations (hblock f hf)
    exact hhead.sublist (by simp [Node.enumMembers, Node.classBody])
  | dataClass name fields body params bases annotations p =>
    obtain ⟨block, hblock, hemit⟩ := exists_emit_dataClass target name fields body params bases annotations p
    rw [hemit]
    have hfields : Settles [] (fields.forM fun f => line (f.parameterText .python [] ++ "\n")) :=
      settles_forM (fun _ => settles_ownLine) fields
    refine Shows.withinClass (shows_write.andThen (shows_write.andThen (Shows.deeper ?_))) _ _
    exact settles_ownLine.before (hfields.before (hblock f hf))
  | enumDecl name members body annotations p =>
    obtain ⟨block, hblock, hemit⟩ := exists_emit_enumDecl target name members body annotations p
    rw [hemit]
    refine Shows.withinClass (shows_write.andThen (Shows.deeper (settles_ownLine.before ?_))) _ _
    exact hg.andThen (hblock f hf)
  | function head params body typeParams annotations =>
    have hlines := shows_function target head params body typeParams annotations
    exact hlines.sublist (by simp [Node.enumMembers, Node.classBody])
  | enumMember => cases hn
  | _ => exact (settles_node _).shows

/-- The lines of a node, of its members and of the statements in it, as texts. -/
def deepLines (target : Target) (n : Node) : List String :=
  scaffoldLines target n ++ n.enumMembers.flatMap (scaffoldLines target) ++ n.classBody.flatMap (scaffoldLines target)

theorem map_line_allScaffolding (target : Target) (body : List Node) :
    (Node.allScaffolding target body).map Scaffold.Use.line = body.flatMap (deepLines target) := by
  simp only [Node.allScaffolding, map_flatMap, map_append]
  rfl

theorem shows_inPlace (h : n.InPlace) : Shows (deepLines target n) (n.emit target) := by
  refine shows_node h.isEnumMember (shows_emitMembers n.enumMembers h.members) fun c hc => ?_
  -- the statements of a class show their own lines
  have hown := shows_node (g := fun _ => []) (f := fun _ => []) (h.statements c hc)
    ((settles_members c.enumMembers).shows.sublist (by simp)) fun c _ => (@settles_node target c).shows
  exact hown.sublist (by simp)

end

/-! ### The lines of a program -/

theorem pieces_forM_write (ts : List String) (e : Emitter) : ((ts.forM write) e).2.pieces = e.pieces ++ ts := by
  induction ts generalizing e with
  | nil => exact (append_nil e.pieces).symm
  | cons t ts ih =>
    have hpieces : (write t e).2.pieces = e.pieces ++ [t] := Array.toList_push
    refine (ih (write t e).2).trans ?_
    rw [hpieces, List.append_assoc, singleton_append]

theorem settles_newLine_dropBlankEnd : Settles [] (newLine >>= fun _ => dropBlankEnd) := by
  have hsame (e : Emitter) : ((newLine >>= fun _ => dropBlankEnd) e).2 = e := by
    show (if (e.output.push "\n").back?.any isBlankText then _ else _ : Emitter) = e
    rw [Array.back?_push, if_pos (by decide), Array.pop_push]
  exact ⟨fun e => by rw [hsame]; exact .refl e.pieces, fun _ _ _ => nofun, fun e _ => by rw [hsame]; exact .refl e⟩

/-- In the text of a program the header and the imports come first, and then the lines with names of the writer. -/
theorem toSource_followed (h : ∀ n ∈ body, n.InPlace) (hbody : body ≠ []) (target : Target) (imports : List String) :
    Followed (String.join (target.header ++ (Needs.of body).importLines target imports))
      ((Node.allScaffolding target body).map Scaffold.Use.line) ((Node.module body).toSource target imports) := by
  obtain ⟨n, ns, rfl⟩ := exists_cons_of_ne_nil hbody
  have hstatements := holds_statements n ns (deepLines target) fun c hc => shows_inPlace (h c hc)
  have hspace : Settles [] (if (Needs.of (n :: ns)).spaced target imports then newLine else pure ()) :=
    settles_ite _ settles_piece settles_pure
  let lines := (Needs.of (n :: ns)).importLines target imports
  have hfollowed := hspace.before (hstatements.settled settles_newLine_dropBlankEnd)
    (lines.forM write ((programContext (n :: ns)).writer target.header.toArray)).2
  rw [pieces_forM_write] at hfollowed
  rw [map_line_allScaffolding, toSource_module, statementLines_cons]
  exact hfollowed

end Emit

end BraceLang
