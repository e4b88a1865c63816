import BraceLang.Proofs.Appending
import BraceLang.Syntax.Rewalk

/-!
# Editing along the walk

An edit of a tree comes to the nodes in the order of the walk, and puts the edited parts of a node together before the
node itself is edited.
-/

namespace BraceLang

open List

variable {σ : Type} {step : σ → Node → σ} {Holds : σ → Prop} {s : σ} {us vs : List Node}

/-! ### Parts -/

def Field.map (f : Node → Node) : Field → Field
  | node n => node (f n)
  | nodes ns => nodes (ns.map (List.map f))
  | keyed keys ns => keyed keys (ns.map f)
  | x => x

namespace Node

variable {f : Node → Node} {n c : Node}

/-- The node with other parts in the places of its own. -/
def mapParts (f : Node → Node) : Node → Node
  | module body => module (body.map f)
  | annotationUse h args keys values => annotationUse h (args.map f) keys (values.map f)
  | interface name methods bases annotations p => interface name (methods.map (List.map f)) bases (annotations.map f) p
  | signature name params result annotations p => signature name (params.map f) result (annotations.map f) p
  | parameter name type default annotations => parameter name type default (annotations.map f)
  | typeParameter name bound annotations p => typeParameter name bound (annotations.map f) p
  | classDecl h body params annotations => classDecl h (body.map f) (params.map f) (annotations.map f)
  | function h params body typeParams annotations =>
    function h (params.map f) (body.map (List.map f)) (typeParams.map f) (annotations.map f)
  | block statements => block (statements.map f)
  | expression value semicolon => expression (f value) semicolon
  | returns value semicolon => returns (f value) semicolon
  | conditional c t e => conditional (f c) (t.map f) (e.map f)
  | forLoop target body => forLoop (f target) (body.map f)
  | whileLoop c body => whileLoop (f c) (body.map f)
  | switch subject cases default => switch (f subject) (cases.map f) (default.map f)
  | case value body => case (f value) (body.map f)
  | assignment target value operator type p => assignment (f target) (f value) operator type p
  | member object name => member (f object) name
  | collection items kind => collection (items.map f) kind
  | call callee arguments => call (f callee) (arguments.map f)
  | argument name value => argument name (f value)
  | logical operator left right => logical operator (f left) (f right)
  | unary operator operand => unary operator (f operand)
  | binary operator left right => binary operator (f left) (f right)
  | lambda params body result => lambda (params.map f) (f body) result
  | raises exception semicolon => raises (f exception) semicolon
  | entry key value => entry (f key) (f value)
  | subscript object index => subscript (f object) (f index)
  | slice start stop step => slice (f start) (f stop) (f step)
  | comprehension element target source condition kind key =>
    comprehension (f element) (f target) (f source) (f condition) kind (f key)
  | finalDecl target value type => finalDecl (f target) (f value) type
  | dataClass name fields body params bases annotations p =>
    dataClass name (fields.map f) (body.map f) (params.map f) bases (annotations.map f) p
  | enumMember name args annotations p => enumMember name (args.map f) (annotations.map f) p
  | enumDecl name members body annotations p => enumDecl name (members.map f) (body.map f) (annotations.map f) p
  | n => n

theorem mapParts_id (n : Node) : n.mapParts id = n := by
  cases n <;> simp [mapParts]

theorem annotations_mapParts (f : Node → Node) (n : Node) : (n.mapParts f).annotations = n.annotations.map f := by
  cases n <;> rfl

/-- The nodes that an edit of the node comes to. -/
def trace (n : Node) : List Node := if n.isPresent then n.walk else []

def traceAll (ns : List Node) : List Node := ns.reverse.flatMap trace

end Node

open Node

def Field.trace : Field → List Node
  | node n => n.trace
  | nodes (some ns) => traceAll ns
  | keyed _ ns => traceAll ns
  | _ => []

theorem Field.trace_eq (f : Field) : f.trace = (f.members.filter isPresent).reverse.flatMap walk := by
  have htrace (ns : List Node) : traceAll ns = (ns.filter isPresent).reverse.flatMap walk := by
    rw [traceAll, ← filter_reverse]
    induction ns.reverse with
    | nil => rfl
    | cons n ns ih =>
      rw [flatMap_cons, ih, Node.trace]
      cases hn : n.isPresent <;> simp [hn]
  cases f with
  | node n => exact (append_nil n.trace).symm.trans (htrace [n])
  | nodes ns =>
    cases ns with
    | none => rfl
    | some ns => exact htrace ns
  | keyed _ ns => exact htrace ns
  | _ => rfl

theorem Node.trace_eq {n : Node} (hn : n.isPresent) :
    n.trace = n :: n.fields.reverse.flatMap fun f => f.2.trace := by
  rw [Node.trace, if_pos hn, walk_eq, children, reverse_flatMap, flatMap_assoc]
  simp only [Field.trace_eq, Function.comp_apply]

/-! ### Runs -/

/-- From this state the step gives this result, and the state is that behind these nodes. -/
def Gives (step : σ → Node → σ) (Holds : σ → Prop) (s : σ) (x : StateM σ α) (a : α) (us : List Node) : Prop :=
  x.run s = (a, us.foldl step s) ∧ Holds (us.foldl step s)

theorem Gives.bind {f : α → StateM σ β} (hx : Gives step Holds s x a us)
    (hf : Holds (us.foldl step s) → Gives step Holds (us.foldl step s) (f a) b vs) :
    Gives step Holds s (x >>= f) b (us ++ vs) := by
  rw [Gives, StateT.run_bind, hx.1, foldl_append]
  exact hf hx.2

theorem gives_pure {a b : α} (h : a = b) (hs : Holds s) : Gives step Holds s (pure a) b [] := ⟨congrArg (·, s) h, hs⟩

namespace Node

variable {visit : Node → StateM σ (Node → Node)} {image : Node → Node} {n : Node} {f : (Node → Node) → StateM σ Node}

/-- A visit of the node, from whatever state, makes its image out of those of its parts. -/
def Visited (visit : Node → StateM σ (Node → Node)) (step : σ → Node → σ) (Holds : σ → Prop) (image : Node → Node)
    (n : Node) : Prop :=
  ∀ s, Holds s → ∃ edit : Node → Node, Gives step Holds s (visit n) edit [n] ∧ edit (n.mapParts image) = image n

theorem Everywhere.visited (h : n.Everywhere (Visited visit step Holds image)) (hs : Holds s)
    (hf : ∀ edit, edit (n.mapParts image) = image n → Holds (step s n) →
      Gives step Holds (step s n) (f edit) (image n) us)
    (hn : n.isPresent) (hus : us = n.fields.reverse.flatMap fun f => f.2.trace) :
    Gives step Holds s (visit n >>= f) (image n) n.trace := by
  obtain ⟨edit, hvisit, hedit⟩ := h.here hn s hs
  rw [trace_eq hn, ← hus]
  exact hvisit.bind (hf edit hedit)

theorem rewalkAll_gives {ns : List Node}
    (h : ∀ n ∈ ns, ∀ {s}, Holds s → Gives step Holds s (rewalk visit n) (image n) n.trace) (hs : Holds s) :
    Gives step Holds s (rewalkAll visit ns) (ns.map image) (traceAll ns) := by
  induction ns generalizing s with
  | nil => exact gives_pure rfl hs
  | cons n ns ih =>
    obtain ⟨hn, hns⟩ := forall_mem_cons.1 h
    have htrace : traceAll (n :: ns) = traceAll ns ++ (n.trace ++ []) := by simp [traceAll]
    rw [htrace]
    exact (ih hns hs).bind fun hs => (hn hs).bind fun hs => gives_pure rfl hs

theorem rewalk_gives (hmissing : image missing = missing) (h : n.Everywhere (Visited visit step Holds image))
    (hs : Holds s) : Gives step Holds s (rewalk visit n) (image n) n.trace := by
  induction n using walk.induct generalizing s with
  | case1 n ih =>
    have hpart {c : Node} {ns : List Node} (hns : ns ∈ n.fields.map (·.2.members)) (hc : c ∈ ns) {s : σ}
        (hs : Holds s) :
        Gives step Holds s (rewalk visit c) (image c) c.trace := by
      obtain ⟨x, hx, rfl⟩ := mem_map.1 hns
      cases hpresent : c.isPresent with
      | true => exact ih ⟨c, mem_reverse.2 (mem_children hx hc hpresent)⟩ (h.of_mem_fields hx hc) hs
      | false =>
        cases c with
        | missing => exact gives_pure hmissing.symm hs
        | _ => cases hpresent
    cases n with
    | missing => exact gives_pure hmissing.symm hs
    | _ =>
      -- The methods of an interface and the body of a function may be left out.
      try cases ‹Option (List Node)›
      all_goals
        apply h.visited hs ?hf rfl ?hus
        case hf =>
          intro _ hedit hs
          repeat' first
            | exact gives_pure hedit ‹_›
            | apply (rewalkAll_gives (fun _ => hpart ?_) ‹_›).bind
            | apply (hpart ?_ (mem_singleton_self _) ‹_›).bind
            | intro hs
            | exact mem_cons_self
            | apply mem_cons_of_mem
        case hus => rfl

/-! ### Edits without a state -/

/-- The tree in which each node, with its parts edited, is changed by the edit for it. -/
def edited (edit : Node → Node → Node) (n : Node) : Node :=
  ((n.rewalk fun m => (pure (edit m) : StateM Unit (Node → Node))).run ()).1

theorem edited_eq (edit : Node → Node → Node) (hn : n.isPresent) :
    n.edited edit = edit n (n.mapParts (edited edit)) := by
  have hall (ns : List Node) : ns.map (edited edit) =
      ((rewalkAll (fun m => (pure (edit m) : StateM Unit (Node → Node))) ns).run ()).1 := by
    induction ns with
    | nil => rfl
    | cons n ns ih => exact congrArg (edited edit n :: ·) ih
  cases n with
  | missing => cases hn
  | interface _ methods => cases methods <;> simp only [mapParts, Option.map_none, Option.map_some, hall] <;> rfl
  | function _ _ body => cases body <;> simp only [mapParts, Option.map_none, Option.map_some, hall] <;> rfl
  | _ =>
    simp only [mapParts, hall]
    rfl

end Node

end BraceLang
