import BraceLang.Proofs.OverloadDecorators

/-!
# Where declarations stand

In a parsed program interfaces, classes, data classes and enums are declared at the top level, functions there and in
the bodies of classes, data classes and enums, and members in enums; below a function or a member nothing is declared.
-/

namespace BraceLang

open List

variable {W : TokenKind → String → Prop} {fs : List (String × Field)} {n m : Node} {body : List Node}

namespace Node

def declares : Node → Bool
  | module _ | interface .. | classDecl .. | dataClass .. | enumDecl .. | enumMember .. | function .. => true
  | _ => false

def isEnumMember : Node → Bool
  | enumMember .. => true
  | _ => false

def isTypeParameter : Node → Bool
  | typeParameter .. => true
  | _ => false

def classBody : Node → List Node
  | classDecl _ body _ _ | dataClass _ _ body _ _ _ _ | enumDecl _ _ body _ _ => body
  | _ => []

def enumMembers : Node → List Node
  | enumDecl _ members _ _ _ => members
  | _ => []

def Plain (n : Node) : Prop := n.Everywhere fun m => m.declares = false

theorem plain_iff : n.Plain ↔ n.declares = false ∧ ∀ c ∈ n.parts, c.Plain := by
  refine everywhere_iff.trans (and_congr_left fun _ => ⟨fun h => ?_, fun h _ => h⟩)
  cases n with
  | missing => rfl
  | _ => exact h rfl

theorem Plain.declares_of_mem_walk (h : n.Plain) (hm : m ∈ n.walk) : m.declares = false :=
  (plain_iff.1 (Everywhere.of_mem_walk h hm)).1

def IsLeaf (n : Node) : Prop := ∀ c ∈ n.parts, c.Plain

theorem IsLeaf.eq_of_mem_walk (h : n.IsLeaf) (hm : m ∈ n.walk) (hdeclares : m.declares) : m = n := by
  rcases mem_walk_iff.1 hm with rfl | ⟨c, hc, hm⟩
  · rfl
  · rw [children_eq] at hc
    have hfalse := (h c (mem_filter.1 hc).1).declares_of_mem_walk hm
    exact Bool.noConfusion (hdeclares.symm.trans hfalse)

end Node

def Role.isPlain : Role → Bool
  | enumMember | member | top | program => false
  | _ => true

def PlainFields (fs : List (String × Field)) : Prop := ∀ f ∈ fs, ∀ c ∈ f.2.members, c.Plain

section

variable {role : Role} {name : String} {ns : List Node}

theorem plainFields_nil : PlainFields [] := forall_mem_nil _

theorem plainFields_skip (hf : f.members = []) (h : PlainFields fs) : PlainFields ((name, f) :: fs) :=
  forall_mem_cons.2 ⟨fun _ hc => (not_mem_nil (hf ▸ hc)).elim, h⟩

theorem plainFields_node (hn : role.isPlain → n.Plain) (hrole : role.isPlain)
    (h : PlainFields fs) : PlainFields ((name, .node n) :: fs) :=
  forall_mem_cons.2 ⟨fun _ hc => mem_singleton.1 hc ▸ hn hrole, h⟩

theorem plainFields_nodes (hns : ∀ m ∈ ns, role.isPlain → m.Plain) (hrole : role.isPlain)
    (h : PlainFields fs) : PlainFields ((name, .nodes (some ns)) :: fs) :=
  forall_mem_cons.2 ⟨fun m hm => hns m hm hrole, h⟩

theorem plainFields_keyed {keys : List String} (hns : ∀ m ∈ ns, role.isPlain → m.Plain)
    (hrole : role.isPlain) (h : PlainFields fs) : PlainFields ((name, .keyed keys ns) :: fs) :=
  forall_mem_cons.2 ⟨fun m hm => hns m hm hrole, h⟩

theorem Fits.isPlain (h : Fits W role n) (hrole : role.isPlain) : n.Plain := by
  induction h with
  | plainArgument _ ih | plainIndex _ ih | present _ ih => exact ih rfl
  | plainMember | plainTop | function | classDecl | dataClass | enumMember | enumDecl | interface | module =>
    cases hrole
  | _ =>
    refine Node.plain_iff.2 ⟨rfl, forall_mem_flatMap.2 ?_⟩
    repeat' first
      | exact plainFields_nil
      | refine plainFields_skip rfl ?_
      | refine plainFields_node (by assumption) (by rfl) ?_
      | refine plainFields_nodes (by assumption) (by rfl) ?_
      | refine plainFields_keyed (by assumption) (by rfl) ?_

theorem Node.decorateAll_eq_self (h : ∀ n ∈ ns, n.decorateClasses = n) : decorateAll ns = ns := by
  rw [decorateAll_eq_map]
  exact map_congr_left h |>.trans (map_id ns)

theorem Fits.decorateClasses_eq (h : Fits W role n) (htop : role ≠ .top) (hprogram : role ≠ .program) :
    n.decorateClasses = n := by
  induction h with
  | plainTop | classDecl | dataClass | enumDecl | interface => exact absurd rfl htop
  | module => exact absurd rfl hprogram
  | forLoop _ _ _ ih | whileLoop _ _ _ ih | case _ _ _ ih | function _ _ _ _ _ _ _ ih =>
    rw [Node.decorateClasses, Node.decorateAll_eq_self fun n hn => ih n hn (by rintro ⟨⟩) (by rintro ⟨⟩)]
  | plainArgument _ ih | plainIndex _ ih | present _ ih | plainMember _ ih => exact ih (by rintro ⟨⟩) (by rintro ⟨⟩)
  | _ => rfl

end

namespace Node

/-! ### The parts of declarations -/

section

variable (name : String) (params body annotations : List Node) (p : Position)

theorem parts_function (head : FunctionHead) (typeParams : List Node) :
    (function head params (some body) typeParams annotations).parts = params ++ (body ++ (typeParams ++ annotations)) :=
  congrArg (fun l => params ++ (body ++ (typeParams ++ l))) (append_nil annotations)

theorem parts_classDecl (head : ClassHead) :
    (classDecl head body params annotations).parts = body ++ (params ++ annotations) :=
  congrArg (fun l => body ++ (params ++ l)) (append_nil annotations)

theorem parts_dataClass (members : List Node) (bases : List String) :
    (dataClass name members body params bases annotations p).parts = members ++ (body ++ (params ++ annotations)) :=
  congrArg (fun l => members ++ (body ++ (params ++ l))) (append_nil annotations)

theorem parts_enumDecl (members : List Node) :
    (enumDecl name members body annotations p).parts = members ++ (body ++ annotations) :=
  congrArg (fun l => members ++ (body ++ l)) (append_nil annotations)

theorem parts_enumMember (args : List Node) : (enumMember name args annotations p).parts = args ++ annotations :=
  congrArg (args ++ ·) (append_nil annotations)

theorem parts_interface (methods : List Node) (bases : List String) :
    (interface name (some methods) bases annotations p).parts = methods ++ annotations :=
  congrArg (methods ++ ·) (append_nil annotations)

end

/-! ### Declarations in their places -/

/-- A statement of a class: one without declarations, or a function with none in it. -/
def IsMember (n : Node) : Prop := n.Plain ∨ n.isFunction ∧ n.IsLeaf

/-- A statement of a program: declarations in it are functions in its body or members of an enum, with none in them. -/
structure InPlace (n : Node) : Prop where
  isEnumMember : n.isEnumMember = false
  members : ∀ c ∈ n.enumMembers, c.isEnumMember
  statements : ∀ c ∈ n.classBody, c.isEnumMember = false
  typeParameters : ∀ p ∈ n.classTypeParameters, p.isTypeParameter
  parts : ∀ c ∈ n.parts, c.Plain ∨ c.IsLeaf ∧
    (c ∈ n.classBody ∧ c.isFunction ∨ c ∈ n.enumMembers ∧ c.isEnumMember)

theorem isFunction_addDecorator (d : String) (n : Node) : (addDecorator d n).isFunction = n.isFunction := by
  cases n with
  | function =>
    rw [addDecorator]
    split <;> rfl
  | _ => rfl

theorem addDecorator_of_not_isFunction (h : n.isFunction = false) (d : String) : addDecorator d n = n := by
  cases n with
  | function => cases h
  | _ => rfl

theorem isFunction_of_not_declares (h : n.declares = false) : n.isFunction = false := by
  cases n with
  | function => cases h
  | _ => rfl

theorem IsMember.addDecorator (h : n.IsMember) (d : String) : (addDecorator d n).IsMember := by
  rcases h with h | ⟨hfunction, hleaf⟩
  · rw [addDecorator_of_not_isFunction (isFunction_of_not_declares (plain_iff.1 h).1)]
    exact .inl h
  · refine .inr ⟨(isFunction_addDecorator d n).trans hfunction, ?_⟩
    rwa [IsLeaf, parts_addDecorator]

theorem forall_mem_decorateBody {P : Node → Prop} (hP : ∀ d n, P n → P (addDecorator d n)) (h : ∀ n ∈ body, P n) :
    ∀ n ∈ decorateBody body, P n := by
  have hrest : ∀ ns earlier, (∀ n ∈ ns, P n) → ∀ n ∈ decorateRest body earlier ns, P n := by
    intro ns
    induction ns with
    | nil => exact fun _ _ => forall_mem_nil _
    | cons n ns ih =>
      intro earlier hns
      obtain ⟨hn, hns⟩ := forall_mem_cons.1 hns
      refine forall_mem_cons.2 ⟨?_, ih _ hns⟩
      rw [decorateOverload_eq]
      cases dispatchFor? body earlier n with
      | none => exact hn
      | some d => exact hP d n hn
  exact hrest body [] h

theorem IsMember.inBody (h : n.IsMember) {owner : Node} (hn : n ∈ owner.classBody) :
    n.Plain ∨ n.IsLeaf ∧ (n ∈ owner.classBody ∧ n.isFunction ∨ n ∈ owner.enumMembers ∧ n.isEnumMember) :=
  h.imp_right fun ⟨hfunction, hleaf⟩ => ⟨hleaf, .inl ⟨hn, hfunction⟩⟩

theorem IsMember.isEnumMember (h : n.IsMember) : n.isEnumMember = false := by
  rcases h with h | ⟨hfunction, -⟩
  · have hdeclares := (plain_iff.1 h).1
    cases n with
    | enumMember => cases hdeclares
    | _ => rfl
  · cases n with
    | function => rfl
    | _ => cases hfunction

theorem IsMember.inPlace (h : n.IsMember) : n.InPlace := by
  have hmember := h.isEnumMember
  rcases h with h | ⟨hfunction, hleaf⟩
  · obtain ⟨hdeclares, hparts⟩ := plain_iff.1 h
    cases n with
    | classDecl | dataClass | enumDecl => cases hdeclares
    | _ =>
      exact ⟨hmember, forall_mem_nil _, forall_mem_nil _, forall_mem_nil _,
        fun c hc => .inl (hparts c hc)⟩
  · cases n with
    | function =>
      exact ⟨rfl, forall_mem_nil _, forall_mem_nil _, forall_mem_nil _, fun c hc => .inl (hleaf c hc)⟩
    | _ => cases hfunction

theorem InPlace.addDecorator (h : n.InPlace) (d : String) : (addDecorator d n).InPlace := by
  cases n with
  | function =>
    rw [Node.addDecorator]
    split
    · exact h
    · exact ⟨rfl, forall_mem_nil _, forall_mem_nil _, forall_mem_nil _, h.parts⟩
  | _ => exact h

end Node

section

open Node

theorem Fits.isMember (h : Fits W .member n) : n.IsMember := by
  cases h with
  | function _ _ _ hparams hbody hannotations =>
    refine .inr ⟨rfl, ?_⟩
    simp only [IsLeaf, parts_function, nil_append, forall_mem_append]
    exact ⟨fun c hc => (hparams c hc).isPlain rfl, fun c hc => (hbody c hc).isPlain rfl,
      fun c hc => (hannotations c hc).isPlain rfl⟩
  | plainMember h => exact .inl (h.isPlain rfl)

theorem Fits.isEnumMember (h : Fits W .enumMember n) : n.isEnumMember ∧ n.IsLeaf := by
  cases h with
  | enumMember _ hargs =>
    rw [IsLeaf, parts_enumMember, append_nil]
    exact ⟨rfl, fun c hc => (hargs c hc).isPlain rfl⟩

theorem Fits.inPlace (h : Fits W .top n) : n.decorateClasses.InPlace := by
  have hplain {ns : List Node} {role : Role} {P : Node → Prop} (hns : ∀ c ∈ ns, Fits W role c)
      (hrole : role.isPlain) : ∀ c ∈ ns, c.Plain ∨ P c := fun c hc => .inl ((hns c hc).isPlain hrole)
  have hself {ns : List Node} (hns : ∀ c ∈ ns, Fits W .member c) : decorateAll ns = ns :=
    decorateAll_eq_self fun c hc => (hns c hc).decorateClasses_eq nofun nofun
  have htyped {ns : List Node} (hns : ∀ c ∈ ns, Fits W .typeParameter c) : ∀ c ∈ ns, c.isTypeParameter := by
    intro c hc
    cases hns c hc
    rfl
  cases h with
  | plainTop h =>
    rw [h.decorateClasses_eq nofun nofun]
    exact h.isMember.inPlace
  | classDecl _ _ _ hbody hparams hannotations =>
    have hmember := forall_mem_decorateBody (fun d n h => h.addDecorator d) fun c hc => (hbody c hc).isMember
    rw [decorateClasses, hself hbody]
    refine ⟨rfl, forall_mem_nil _, fun c hc => (hmember c hc).isEnumMember, htyped hparams, ?_⟩
    simp only [parts_classDecl, forall_mem_append]
    exact ⟨fun c hc => (hmember c hc).inBody hc, hplain hparams rfl, hplain hannotations rfl⟩
  | dataClass _ hfields hbody hparams hannotations =>
    rw [decorateClasses, hself hbody]
    refine ⟨rfl, forall_mem_nil _, fun c hc => (hbody c hc).isMember.isEnumMember, htyped hparams, ?_⟩
    simp only [parts_dataClass, forall_mem_append]
    exact ⟨hplain hfields rfl, fun c hc => (hbody c hc).isMember.inBody hc, hplain hparams rfl, hplain hannotations rfl⟩
  | enumDecl _ hmembers hbody hannotations =>
    rw [decorateClasses, hself hbody]
    refine ⟨rfl, fun c hc => (hmembers c hc).isEnumMember.1, fun c hc => (hbody c hc).isMember.isEnumMember,
      forall_mem_nil _, ?_⟩
    simp only [parts_enumDecl, forall_mem_append]
    refine ⟨fun c hc => ?_, fun c hc => (hbody c hc).isMember.inBody hc, hplain hannotations rfl⟩
    exact .inr ⟨(hmembers c hc).isEnumMember.2, .inr ⟨hc, (hmembers c hc).isEnumMember.1⟩⟩
  | interface _ hmethods _ hannotations =>
    refine ⟨rfl, forall_mem_nil _, forall_mem_nil _, forall_mem_nil _, ?_⟩
    show ∀ c ∈ Node.parts (.interface ..), _
    simp only [parts_interface, forall_mem_append]
    exact ⟨hplain hmethods rfl, hplain hannotations rfl⟩

theorem exists_inPlace (hm : parseTokens tokens = .ok m) :
    ∃ body, m.decorated = .module body ∧ ∀ n ∈ body, n.InPlace := by
  cases parseTokens_fits (W := fun _ _ => True) (fun _ _ => trivial) hm with
  | module hbody =>
    refine ⟨_, rfl, forall_mem_decorateBody (fun d n h => h.addDecorator d) ?_⟩
    rw [decorateAll_eq_map]
    exact forall_mem_map.2 fun n hn => (hbody n hn).inPlace

end

inductive Declared (body : List Node) (n : Node) : Prop
  | top (hn : n ∈ body) (h : n.isEnumMember = false)
  | method {owner : Node} (howner : owner ∈ body) (hn : n ∈ owner.classBody) (h : n.isFunction)
  | member {owner : Node} (howner : owner ∈ body) (hn : n ∈ owner.enumMembers) (h : n.isEnumMember)

open Node in
theorem declared_of_mem_walk (hbody : ∀ n ∈ body, n.InPlace)
    (hn : n ∈ (Node.module body).walk) (hdeclares : n.declares) : n = .module body ∨ Declared body n := by
  have hparts {c owner : Node} (hc : c ∈ owner.children) : c ∈ owner.parts :=
    (mem_filter.1 (children_eq owner ▸ hc)).1
  -- a statement, a node in a statement, and below that no declarations
  rcases mem_walk_iff.1 hn with rfl | ⟨owner, howner, hn⟩
  · exact .inl rfl
  · have howner : owner ∈ body := append_nil body ▸ hparts howner
    obtain ⟨hmember, -, -, -, hplaces⟩ := hbody owner howner
    rcases mem_walk_iff.1 hn with rfl | ⟨c, hc, hn⟩
    · exact .inr (.top howner hmember)
    · rcases hplaces c (hparts hc) with hplain | ⟨hleaf, hplace⟩
      · exact Bool.noConfusion (hdeclares.symm.trans (hplain.declares_of_mem_walk hn))
      · obtain rfl := hleaf.eq_of_mem_walk hn hdeclares
        rcases hplace with ⟨hn, h⟩ | ⟨hn, h⟩
        · exact .inr (.method howner hn h)
        · exact .inr (.member howner hn h)

end BraceLang
