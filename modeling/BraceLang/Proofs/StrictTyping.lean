import BraceLang.Analysis.CallTypes
import BraceLang.Proofs.DeclaredScopes
import BraceLang.Proofs.ProgramText

/-!
# Which variables need a type

An assignment without a type needs a value that is a literal or a call of a class, or a variable whose type is known
where it stands.
-/

namespace BraceLang

open List

variable {t : SymbolTable} {W : TokenKind → String → Prop} {n m : Node} {branches : Bool} {p : AssignedPlace}
  {body : List Node}

def Finding.isUntyped (f : Finding) : Bool :=
  match f.problem with
  | .untypedVariable _ => true
  | _ => false

namespace Node

/-! ### Assignments without a type -/

mutual

/-- The assignments of values to names without a type, among the statements of a node.  Conditionals and switches are
entered only if `branches` is set. -/
def assigned (branches : Bool) : Node → List (String × Node)
  | expression (assignment (identifier name) value _ none _) _ => [(name, value)]
  | conditional _ thenBody elseBody =>
    if branches then allAssigned branches thenBody ++ allAssigned branches elseBody else []
  | switch _ cases default => if branches then allAssigned branches cases ++ allAssigned branches default else []
  | forLoop _ body | whileLoop _ body | case _ body => allAssigned branches body
  | _ => []

def allAssigned (branches : Bool) : List Node → List (String × Node)
  | [] => []
  | n :: ns => assigned branches n ++ allAssigned branches ns

end

def isLiteral : Node → Bool
  | literal .. | collection .. => true
  | _ => false

def isCallOf (names : List String) : Node → Bool
  | call (identifier name) _ => name ∈ names
  | _ => false

def checkedScope : Node → String
  | classDecl h .. => h.name
  | _ => "global"

def isRecord : Node → Bool
  | dataClass .. | enumDecl .. => true
  | _ => false

end Node

open Node

/-- An assignment without a type: the scope in which it is checked, the blocks around it from the inside out, the name
and the value. -/
structure AssignedPlace where
  checked : String
  around : List Block
  name : String
  value : Node

namespace Node

def placesIn (branches : Bool) (checked : String) (owner : Option Block) (known : List String) (n : Node) :
    List AssignedPlace :=
  match n with
  | function h _ body _ _ => (allAssigned branches (body.getD [])).map fun a =>
      ⟨SymbolTable.innerScope checked h.name, n.blocksIn (owner.map (·.scope)) known ++ owner.toList, a.1, a.2⟩
  | _ => (n.assigned branches).map fun a => ⟨checked, owner.toList, a.1, a.2⟩

def topPlaces (branches : Bool) (known : List String) (n : Node) : List AssignedPlace :=
  match n.typeName? with
  | some cls => n.members.flatMap (placesIn branches n.checkedScope (some ⟨cls, "global", known, n⟩) known)
  | none => n.placesIn branches "global" none known

def places (branches : Bool) (m : Node) : List AssignedPlace := m.items.flatMap fun i => i.2.topPlaces branches i.1

end Node

namespace AssignedPlace

def finding (p : AssignedPlace) : Finding := ⟨.untypedVariable p.name, {}⟩

/-- Whether the value shows its type, or the name has one in the scope in which it is looked up. -/
def isTyped (m : Node) (p : AssignedPlace) : Bool :=
  p.value.isLiteral || p.value.isCallOf m.typeNames ||
    isGiven (visible? m.declarations m.openings p.checked p.name).join

def declaredAround (branches : Bool) (m : Node) (p : AssignedPlace) : List (String × Option String) :=
  p.around.flatMap (fun b => b.node.ownDeclared branches b.known) ++ m.moduleDeclared branches

end AssignedPlace

/-! ### What the check reports -/

namespace SymbolTable

variable {scope : String}

def untyped? (t : SymbolTable) (scope : String) (a : String × Node) : Option Finding :=
  if isGiven ((t.lookup scope a.1).bind (·.type)) || t.isSelfTyped a.2 then none else some ⟨.untypedVariable a.1, {}⟩

/-- The second state has the reports of the first and these. -/
def Adds (s : TypeCheck) (fs : List Finding) (s' : TypeCheck) : Prop :=
  s'.findings.filter Finding.isUntyped = s.findings.filter Finding.isUntyped ++ fs

theorem Adds.refl (s : TypeCheck) : Adds s [] s := (append_nil _).symm

theorem Adds.trans {s s' s'' : TypeCheck} (h : Adds s fs s') (h' : Adds s' fs' s'') : Adds s (fs ++ fs') s'' := by
  rw [Adds, h', h, List.append_assoc]

theorem adds_checkCall (scope : String) (callee : Node) (arguments : List Node) (s : TypeCheck) :
    Adds s [] (t.checkCall scope callee arguments s) := by
  unfold checkCall
  split
  · exact .refl s
  · dsimp only
    split
    · exact .refl s
    · split
      · simp [Adds, Finding.isUntyped]
      · split
        · split
          · exact .refl s
          · exact .refl s
        · exact .refl s

theorem adds_checkAssigned (scope name : String) (value : Node) (s : TypeCheck) :
    Adds s (t.untyped? scope (name, value)).toList (t.checkAssigned scope (.identifier name) value s) := by
  unfold checkAssigned untyped?
  dsimp only
  split
  · exact .refl s
  · simp [Adds, Finding.isUntyped]

theorem adds_checkExpression (scope : String) (value : Node) (semicolon : Bool) (s : TypeCheck) :
    Adds s (((Node.expression value semicolon).assigned false).filterMap (t.untyped? scope))
      (t.checkExpression scope value s) := by
  cases value with
  | call => exact adds_checkCall ..
  | assignment target value operator type p =>
    cases type with
    | some => cases target <;> exact .refl s
    | none =>
      cases target with
      | identifier name =>
        have hreports : ((Node.expression (.assignment (.identifier name) value operator none p) semicolon).assigned
            false).filterMap (t.untyped? scope) = [] ++ (t.untyped? scope (name, value)).toList := by
          rw [assigned, filterMap_cons]
          cases t.untyped? scope (name, value) <;> rfl
        rw [hreports]
        -- a value that is a call is checked first, which adds no report of this kind
        cases value with
        | call => exact (adds_checkCall ..).trans (adds_checkAssigned ..)
        | _ => exact (Adds.refl s).trans (adds_checkAssigned ..)
      | _ =>
        cases value with
        | call => exact adds_checkCall ..
        | _ => exact .refl s
  | _ => exact .refl s

theorem adds_checkNodes (hbody : ∀ n ∈ body, ∀ s, Adds s ((n.assigned false).filterMap (t.untyped? scope))
    (t.checkNode scope n s))
    (s : TypeCheck) : Adds s ((allAssigned false body).filterMap (t.untyped? scope)) (t.checkNodes scope body s) := by
  induction body generalizing s with
  | nil => exact .refl s
  | cons n body ih =>
    rw [checkNodes, allAssigned, filterMap_append]
    exact (hbody n (.head body) s).trans (ih (fun k hk => hbody k (.tail n hk)) _)

end SymbolTable

section

open SymbolTable

theorem Fits.adds_statement (h : Fits W role n) (hrole : role = .statement) (scope : String)
    (s : TypeCheck) : Adds s ((n.assigned false).filterMap (t.untyped? scope)) (t.checkNode scope n s) := by
  induction h generalizing s with
  | expressionStatement | declaration =>
    exact adds_checkExpression ..
  | forLoop _ _ _ ih | whileLoop _ _ _ ih =>
    exact adds_checkNodes (fun n hn s => ih n hn rfl s) s
  | finalDecl | pass | returns | raises | imports | conditional | switch => exact .refl s
  | _ => cases hrole

def SymbolTable.report? (t : SymbolTable) (p : AssignedPlace) : Option Finding := t.untyped? p.checked (p.name, p.value)

theorem Fits.adds_member (h : Fits W .member n) (scope : String) (owner : Option Block) (known : List String)
    (s : TypeCheck) : Adds s ((n.placesIn false scope owner known).filterMap t.report?) (t.checkNode scope n s) := by
  cases h with
  | @function head params body annotations _ _ _ _ hbody =>
    rw [placesIn, checkNode, filterMap_map]
    exact adds_checkNodes (fun n hn s => (hbody n hn).adds_statement rfl _ s) s
  | plainMember h =>
    have hplaces : n.placesIn false scope owner known =
        (n.assigned false).map fun a => ⟨scope, owner.toList, a.1, a.2⟩ := by cases h <;> rfl
    rw [hplaces, filterMap_map]
    exact h.adds_statement rfl scope s

theorem Fits.adds_members (h : ∀ n ∈ body, Fits W .member n) (scope : String)
    (owner : Option Block) (known : List String) (s : TypeCheck) :
    Adds s ((body.flatMap (placesIn false scope owner known)).filterMap t.report?) (t.checkNodes scope body s) := by
  induction body generalizing s with
  | nil => exact .refl s
  | cons n body ih =>
    rw [checkNodes, flatMap_cons, filterMap_append]
    exact ((h n (.head body)).adds_member scope owner known s).trans (ih (fun k hk => h k (.tail n hk)) _)

theorem Fits.adds_top (h : Fits W .top n) (known : List String) (s : TypeCheck) :
    Adds s ((n.topPlaces false known).filterMap t.report?) (t.checkNode "global" n s) := by
  cases h with
  | plainTop h =>
    have hnone : n.typeName? = none := h.typeName?_eq_none
    rw [topPlaces, hnone]
    exact h.adds_member "global" none known s
  | classDecl _ _ _ hbody | dataClass _ _ hbody | enumDecl _ _ hbody => exact Fits.adds_members hbody _ _ known s
  | interface => exact .refl s

theorem Fits.adds_tops (h : ∀ n ∈ ns, Fits W .top n) (known : List String) (s : TypeCheck) :
    Adds s (((withKnown known ns).flatMap fun i => i.2.topPlaces false i.1).filterMap t.report?)
      (t.checkNodes "global" ns s) := by
  induction ns generalizing known s with
  | nil => exact .refl s
  | cons n ns ih =>
    rw [checkNodes, withKnown, flatMap_cons, filterMap_append]
    exact ((h n (.head ns)).adds_top _ s).trans (ih (fun k hk => h k (.tail n hk)) _ _)

theorem report?_symbols (h : Fits W .program m) (p : AssignedPlace) :
    m.symbols.report? p = if p.isTyped m then none else some p.finding := by
  have hrecords := h.records_symbols
  have htype : (m.symbols.lookup p.checked p.name).bind (·.type) =
      (visible? m.declarations m.openings p.checked p.name).join := by
    rw [← hrecords.lookup_type]
    cases m.symbols.lookup p.checked p.name <;> rfl
  have hvalue : m.symbols.isSelfTyped p.value = (p.value.isLiteral || p.value.isCallOf m.typeNames) := by
    cases p.value with
    | call callee =>
      cases callee with
      | identifier name => exact hrecords.classes name
      | _ => rfl
    | _ => rfl
  rw [report?, untyped?, htype, hvalue, Bool.or_comm]
  rfl

theorem Fits.untyped_checkTypes (h : Fits W .program m) (bindings : NameMap Bindings) :
    (m.symbols.checkTypes m bindings).findings.filter Finding.isUntyped =
      ((m.places false).filter fun p => !p.isTyped m).map AssignedPlace.finding := by
  have hadds : Adds { bindings := bindings } ((m.places false).filterMap m.symbols.report?)
      (m.symbols.checkTypes m bindings) := by
    cases h with
    | module hbody => exact Fits.adds_tops hbody [] _
  rw [hadds, funext (report?_symbols h), ← filterMap_eq_map, filterMap_filter]
  refine congrArg ([] ++ ·) (filterMap_congr fun p _ => ?_)
  cases p.isTyped m <;> rfl

end

/-! ### Where the check looks in the right scopes -/

def Nested : List Block → Prop
  | [] => True
  | b :: bs => b.parent = (bs.map (·.scope)).headD "global" ∧ Nested bs

namespace AssignedPlace

/-- No block has the scope of the program, the blocks around the place share their scopes with no others and are neither
data classes nor enumerations, and all declarations of the name around the place have a type. -/
structure Plain (m : Node) (p : AssignedPlace) : Prop where
  global : ∀ b ∈ m.blocks, b.scope ≠ "global"
  named : ∀ b ∈ p.around, b.scope ≠ ""
  alone : ∀ b ∈ p.around, (m.blocks.filter (·.scope = b.scope)).length = 1
  checked : ∀ b ∈ p.around, b.node.isRecord = false
  typed : ∀ x ∈ p.declaredAround false m, x.1 = p.name → isGiven x.2

instance (m : Node) (p : AssignedPlace) : Decidable (p.Plain m) :=
  decidable_of_iff
    ((∀ b ∈ m.blocks, b.scope ≠ "global") ∧ (∀ b ∈ p.around, b.scope ≠ "") ∧
      (∀ b ∈ p.around, (m.blocks.filter (·.scope = b.scope)).length = 1) ∧
      (∀ b ∈ p.around, b.node.isRecord = false) ∧ ∀ x ∈ p.declaredAround false m, x.1 = p.name → isGiven x.2)
    ⟨fun ⟨h₁, h₂, h₃, h₄, h₅⟩ => ⟨h₁, h₂, h₃, h₄, h₅⟩, fun ⟨h₁, h₂, h₃, h₄, h₅⟩ => ⟨h₁, h₂, h₃, h₄, h₅⟩⟩

end AssignedPlace

namespace Node

variable {checked : String} {owner : Option Block} {known : List String}

theorem around_of_mem_placesIn (h : p ∈ n.placesIn branches checked owner known) :
    p.around = n.blocksIn (owner.map (·.scope)) known ++ owner.toList := by
  cases n with
  | function =>
    obtain ⟨a, _, rfl⟩ := mem_map.1 h
    rfl
  | _ =>
    obtain ⟨a, _, rfl⟩ := mem_map.1 h
    rfl

theorem nested_blocksIn (howner : ∀ b ∈ owner, b.parent = "global") :
    Nested (n.blocksIn (owner.map (·.scope)) known ++ owner.toList) := by
  have houter : Nested owner.toList := by
    cases owner with
    | none => trivial
    | some b => exact ⟨howner b rfl, trivial⟩
  cases n with
  | function =>
    refine ⟨?_, houter⟩
    cases owner <;> rfl
  | _ => exact houter

theorem checked_of_mem_placesIn (h : p ∈ n.placesIn branches checked owner known)
    (hchecked : checked = (owner.map (·.scope)).getD "global")
    (howner : ∀ b ∈ owner, b.scope ≠ "global" ∧ b.scope ≠ "") :
    p.checked = (p.around.map (·.scope)).headD "global" := by
  cases n with
  | function head =>
    obtain ⟨a, _, rfl⟩ := mem_map.1 h
    cases owner with
    | none =>
      rw [hchecked]
      rfl
    | some b =>
      obtain ⟨hglobal, hempty⟩ := howner b rfl
      change SymbolTable.innerScope checked head.name = methodScope b.scope head.name
      rw [hchecked, Option.map_some, Option.getD_some, SymbolTable.innerScope, methodScope, if_neg hglobal,
        if_neg (by simpa using hempty)]
  | _ =>
    obtain ⟨a, _, rfl⟩ := mem_map.1 h
    rw [hchecked]
    cases owner <;> rfl

theorem around_of_mem_places (h : p ∈ m.places branches) : Nested p.around ∧ ∀ b ∈ p.around, b ∈ m.blocks := by
  obtain ⟨i, hi, hp⟩ := mem_flatMap.1 h
  have hblocks (b : Block) (hb : b ∈ i.2.topBlocks i.1) : b ∈ m.blocks := mem_flatMap.2 ⟨i, hi, hb⟩
  unfold topPlaces at hp
  unfold topBlocks at hblocks
  split at hp
  · next cls hcls =>
    obtain ⟨k, hk, hp⟩ := mem_flatMap.1 hp
    rw [around_of_mem_placesIn hp]
    refine ⟨nested_blocksIn (by simp), fun b hb => hblocks b ?_⟩
    rw [hcls]
    rcases mem_append.1 hb with hb | hb
    · exact .tail _ (mem_flatMap.2 ⟨k, hk, hb⟩)
    · exact mem_cons.2 (.inl (mem_singleton.1 hb))
  · next hnone =>
    rw [around_of_mem_placesIn hp]
    refine ⟨nested_blocksIn (by simp), fun b hb => hblocks b ?_⟩
    rw [hnone]
    simpa using hb

end Node

namespace AssignedPlace.Plain

theorem checked_eq (h : p.Plain m) (hp : p ∈ m.places branches) :
    p.checked = (p.around.map (·.scope)).headD "global" := by
  obtain ⟨_, hblocks⟩ := around_of_mem_places hp
  obtain ⟨i, _, hi⟩ := mem_flatMap.1 hp
  unfold topPlaces at hi
  split at hi
  · next cls hcls =>
    obtain ⟨k, _, hk⟩ := mem_flatMap.1 hi
    have hmem : ⟨cls, "global", i.1, i.2⟩ ∈ p.around := by
      rw [around_of_mem_placesIn hk]
      simp
    refine checked_of_mem_placesIn hk ?_ ?_
    · have hrecord := h.checked _ hmem
      cases hn : i.2 with
      | classDecl =>
        rw [hn] at hcls
        cases hcls
        rfl
      | dataClass | enumDecl =>
        rw [hn] at hrecord
        cases hrecord
      | _ =>
        rw [hn] at hcls
        cases hcls
    · rintro b ⟨⟩
      exact ⟨h.global _ (hblocks _ hmem), h.named _ hmem⟩
  · exact checked_of_mem_placesIn hi rfl fun b hb => by cases hb

theorem eq_of_scope_eq (h : p.Plain m) (hb : b ∈ p.around) (hbm : b ∈ m.blocks) (hc : c ∈ m.blocks)
    (hscope : c.scope = b.scope) : c = b := by
  obtain ⟨a, ha⟩ := length_eq_one_iff.1 (h.alone b hb)
  have hmem (d : Block) (hd : d ∈ m.blocks) (hs : d.scope = b.scope) : d = a := by
    have : d ∈ m.blocks.filter (·.scope = b.scope) := mem_filter.2 ⟨hd, by simpa using hs⟩
    rwa [ha, mem_singleton] at this
  rw [hmem c hc hscope, hmem b hbm rfl]

theorem chain_of_nested (h : Fits W .program m) (hglobal : ∀ b ∈ m.blocks, b.scope ≠ "global") (hnested : Nested bs)
    (hblocks : ∀ b ∈ bs, b ∈ m.blocks) (halone : ∀ b ∈ bs, (m.blocks.filter (·.scope = b.scope)).length = 1) :
    NameMap.get? (chains m.openings) ((bs.map (·.scope)).headD "global") = some (bs.map (·.scope) ++ ["global"]) := by
  induction bs with
  | nil => exact get?_chains_global _
  | cons b bs ih =>
    obtain ⟨hparent, hnested⟩ := hnested
    have houter := ih hnested (fun c hc => hblocks c (.tail b hc)) (fun c hc => halone c (.tail b hc))
    obtain ⟨before, after, hsplit⟩ := append_of_mem (hblocks b (.head bs))
    have hopenings : m.openings = before.map Block.opening ++ b.opening :: after.map Block.opening := by
      rw [openings, hsplit, map_append, map_cons]
    -- no block before opens the same scope
    have hfirst : ¬ IsOpen (before.map Block.opening) b.opening.1 := by
      rw [isOpen_iff]
      rintro (heq | hmem)
      · exact hglobal b (hblocks b (.head bs)) heq
      · obtain ⟨o, ho, heq⟩ := mem_map.1 hmem
        obtain ⟨c, hc, rfl⟩ := mem_map.1 ho
        have hone := halone b (.head bs)
        have hpos : 0 < (before.filter (·.scope = b.scope)).length :=
          length_pos_of_mem (mem_filter.2 ⟨hc, decide_eq_true heq⟩)
        rw [hsplit, filter_append, filter_cons_of_pos (by simp), length_append, length_cons] at hone
        omega
    have hopen := h.records_symbols.nested _ _ _ hopenings
    rw [← hparent] at houter
    rw [hopenings] at houter ⊢
    exact get?_chains_of_first hfirst hopen houter

theorem visible?_eq (h : p.Plain m) (hm : Fits W .program m) (hp : p ∈ m.places branches) :
    visible? m.declarations m.openings p.checked p.name =
      (p.around.map (·.scope) ++ ["global"]).findSome? fun s => Declaration.last? m.declarations s p.name := by
  obtain ⟨hnested, hblocks⟩ := around_of_mem_places hp
  have hnames : ∀ s ∈ p.around.map (·.scope) ++ ["global"], decide (s ≠ "") := by
    intro s hs
    rcases mem_append.1 hs with hs | hs
    · obtain ⟨b, hb, rfl⟩ := mem_map.1 hs
      exact decide_eq_true (h.named b hb)
    · cases mem_singleton.1 hs
      rfl
  rw [visible?, h.checked_eq hp, chain_of_nested hm h.global hnested hblocks h.alone, Option.getD_some,
    takeWhile_eq_self_iff.2 hnames]

/-- A name is declared in a scope of the chain just by the blocks around the place and by the program. -/
theorem mem_declaredAround_iff (h : p.Plain m) (hp : p ∈ m.places branches) :
    (p.name, type) ∈ p.declaredAround false m ↔
      ∃ s ∈ p.around.map (·.scope) ++ ["global"], ⟨s, p.name, type⟩ ∈ m.declarations := by
  obtain ⟨_, hblocks⟩ := around_of_mem_places hp
  simp only [declaredAround, mem_append, mem_flatMap, mem_map, mem_singleton, mem_declarations_iff]
  constructor
  · rintro (⟨b, hb, hd⟩ | hd)
    · exact ⟨b.scope, .inl ⟨b, hb, rfl⟩, .inr ⟨b, hblocks b hb, rfl, hd⟩⟩
    · exact ⟨"global", .inr rfl, .inl ⟨rfl, hd⟩⟩
  · rintro ⟨s, hs, ⟨_, hd⟩ | ⟨c, hc, hscope, hd⟩⟩
    · exact .inr hd
    · rcases hs with ⟨b, hb, rfl⟩ | rfl
      · rw [h.eq_of_scope_eq hb (hblocks b hb) hc hscope.symm] at hd
        exact .inl ⟨b, hb, hd⟩
      · exact absurd hscope.symm (h.global c hc)

theorem isGiven_iff (h : p.Plain m) (hm : Fits W .program m) (hp : p ∈ m.places branches) :
    isGiven (visible? m.declarations m.openings p.checked p.name).join ↔
      ∃ type, (p.name, some type) ∈ p.declaredAround false m := by
  have hfound {type : Option String} (hv : visible? m.declarations m.openings p.checked p.name = some type) :
      (p.name, type) ∈ p.declaredAround false m := by
    rw [h.visible?_eq hm hp] at hv
    obtain ⟨s, hs, hlast⟩ := exists_of_findSome?_eq_some hv
    exact (h.mem_declaredAround_iff hp).2 ⟨s, hs, Declaration.mem_of_last? hlast⟩
  constructor
  · intro hgiven
    cases hv : visible? m.declarations m.openings p.checked p.name with
    | none =>
      rw [hv] at hgiven
      cases hgiven
    | some type =>
      rw [hv] at hgiven
      cases type with
      | none => cases hgiven
      | some type => exact ⟨type, hfound hv⟩
  · rintro ⟨type, hd⟩
    obtain ⟨s, hs, hmem⟩ := (h.mem_declaredAround_iff hp).1 hd
    cases hv : visible? m.declarations m.openings p.checked p.name with
    | none =>
      rw [h.visible?_eq hm hp, findSome?_eq_none_iff] at hv
      exact absurd hmem (Declaration.last?_eq_none_iff.1 (hv s hs) _)
    | some => exact h.typed _ (hfound hv) rfl

theorem isTyped_iff (h : p.Plain m) (hm : Fits W .program m) (hp : p ∈ m.places branches) :
    p.isTyped m ↔ p.value.isLiteral ∨ p.value.isCallOf m.typeNames ∨
      ∃ type, (p.name, some type) ∈ p.declaredAround false m := by
  rw [isTyped, Bool.or_eq_true, Bool.or_eq_true, h.isGiven_iff hm hp, or_assoc]

end AssignedPlace.Plain

/-- On the symbol table of a parsed program, the check reports the assignments outside conditionals and switches where
no type is known, in their order.  Where the blocks around an assignment share their scopes with no others, are neither
data classes nor enumerations and leave the name nowhere without a type, the type is known just if the value is a
literal or a call of a class of the program, or the name is declared with a type in the function, the class or the
program around. -/
theorem checkTypes_reports_untyped {tokens : List Token} {m : Node} (hm : parseTokens tokens = .ok m)
    (bindings : NameMap Bindings) :
    (m.symbols.checkTypes m bindings).findings.filter Finding.isUntyped =
      ((m.places false).filter fun p => !p.isTyped m).map AssignedPlace.finding ∧
    ∀ p ∈ m.places false, p.Plain m →
      (p.isTyped m = true ↔ p.value.isLiteral ∨ p.value.isCallOf m.typeNames ∨
        ∃ type, (p.name, some type) ∈ p.declaredAround false m) := by
  have hfits : Fits (fun _ _ => True) .program m := parseTokens_fits (fun _ _ => trivial) hm
  exact ⟨hfits.untyped_checkTypes bindings, fun p hp hplain => hplain.isTyped_iff hfits hp⟩

/-- A method of a class that assigns a parameter, a variable of the program and a new name. -/
def methodSource : String :=
  "k: int = 2;\nclass A \x7b\ndef f(x: int) \x7b\nx = g(x);\nwhile x \x7b\nk = g(x);\n" ++
    "y = g(x);\n\x7d\n\x7d\n\x7d\n"

theorem checkTypes_reports_untyped_method : ∃ tokens m, tokenize methodSource = .ok tokens ∧
    parseTokens tokens = .ok m ∧
    (m.symbols.checkTypes m []).findings.filter Finding.isUntyped = [⟨.untypedVariable "y", {}⟩] ∧
    (m.places false).map (·.name) = ["x", "k", "y"] ∧
    ∀ p ∈ m.places false, p.Plain m ∧ (p.name ≠ "y" ↔ ∃ type, (p.name, some type) ∈ p.declaredAround false m) := by
  obtain ⟨tokens, m, htokens, hm, hnames, hfound, hplain, htyped⟩ :
      ∃ tokens m, tokenize methodSource = .ok tokens ∧ parseTokens tokens = .ok m ∧
        (m.places false).map (·.name) = ["x", "k", "y"] ∧
        ((m.places false).filter fun p => !p.isTyped m).map AssignedPlace.finding =
          [⟨.untypedVariable "y", {}⟩] ∧
        (∀ p ∈ m.places false, p.Plain m) ∧
        ∀ p ∈ m.places false, p.isTyped m = decide (p.name ≠ "y") ∧ p.value.isLiteral = false ∧
          p.value.isCallOf m.typeNames = false := exists_parsed (by decide +kernel)
  obtain ⟨hreports, hiff⟩ := checkTypes_reports_untyped hm []
  refine ⟨tokens, m, htokens, hm, hreports.trans hfound, hnames, fun p hp => ⟨hplain p hp, ?_⟩⟩
  obtain ⟨hname, hliteral, hcall⟩ := htyped p hp
  simpa [hname, hliteral, hcall] using hiff p hp (hplain p hp)

def branchSource : String := "def f(a: int) \x7b\nif a \x7b\nx = g(a);\n\x7d\n\x7d\n"

def recordSource : String :=
  "data class P(x: int) \x7b\ndef move(self, y: int) \x7b\ny = g(y);\n\x7d\n\x7d\n"

/-- The check misses an assignment in a conditional, and reports one to a parameter that has a type. -/
theorem exists_strict_typing_misjudged : (∃ tokens m, tokenize branchSource = .ok tokens ∧
      parseTokens tokens = .ok m ∧ (m.symbols.checkTypes m []).findings = [] ∧
      ∃ p ∈ m.places true, p.value.isLiteral = false ∧ p.value.isCallOf m.typeNames = false ∧
        ∀ x ∈ p.declaredAround true m, x.1 ≠ p.name) ∧
    ∃ tokens m, tokenize recordSource = .ok tokens ∧ parseTokens tokens = .ok m ∧
      ∃ p ∈ m.places true, p.finding ∈ (m.symbols.checkTypes m []).findings ∧
        (p.name, some "int") ∈ p.declaredAround true m ∧ (m.places true).length = 1 :=
  ⟨exists_parsed (by decide +kernel), exists_parsed (by decide +kernel)⟩

end BraceLang
