import BraceLang.Proofs.ProgramOutcome
import BraceLang.Proofs.Refinement

/-!
# Writing only appends

A node that needs the text of a part cuts it off the end of the output.
-/

namespace BraceLang

open List

variable {role : Role} {n m : Node} {W : TokenKind → String → Prop} {ns : List Node} {P : Node → Prop} {name : String}
  {fs : List (String × Field)} {f : String × Field} {keys : List String}

namespace Node

def isSlice : Node → Bool
  | slice .. => true
  | _ => false

def Everywhere (P : Node → Prop) (n : Node) : Prop := ∀ m ∈ n.walk, m.isPresent → P m

instance (P : Node → Prop) [DecidablePred P] (n : Node) : Decidable (n.Everywhere P) :=
  inferInstanceAs (Decidable (∀ m ∈ n.walk, m.isPresent → P m))

def SliceFree (n : Node) : Prop := n.Everywhere fun m => m.isSlice = false

instance (n : Node) : Decidable n.SliceFree := inferInstanceAs (Decidable (n.Everywhere _))

theorem mem_walk_iff : m ∈ n.walk ↔ m = n ∨ ∃ c ∈ n.children, m ∈ c.walk := by
  rw [walk]
  simp

theorem mem_walk_self (n : Node) : n ∈ n.walk := mem_walk_iff.2 (.inl rfl)

theorem mem_walk_of_mem_children (hc : c ∈ n.children) (hm : m ∈ c.walk) : m ∈ n.walk :=
  mem_walk_iff.2 (.inr ⟨c, hc, hm⟩)

theorem mem_children (hf : f ∈ n.fields) (hm : m ∈ f.2.members) (hp : m.isPresent) : m ∈ n.children :=
  mem_flatMap.2 ⟨f, hf, mem_filter.2 ⟨hm, hp⟩⟩

namespace Everywhere

theorem here (h : n.Everywhere P) (hn : n.isPresent := by rfl) : P n := h n (mem_walk_self n) hn

theorem of_mem_fields (h : n.Everywhere P) (hf : f ∈ n.fields) (hm : m ∈ f.2.members) : m.Everywhere P := by
  cases hp : m.isPresent with
  | true => exact fun k hk => h k (mem_walk_of_mem_children (mem_children hf hm hp) hk)
  | false =>
    cases m with
    | missing =>
      intro k hk hk'
      rw [mem_walk_iff] at hk
      rcases hk with rfl | ⟨c, hc, _⟩
      · cases hk'
      · cases hc
    | _ => cases hp

theorem node (h : n.Everywhere P) (i : Nat) (hf : n.fields[i]? = some (name, .node m) := by rfl) : m.Everywhere P :=
  h.of_mem_fields (mem_of_getElem? hf) (mem_singleton.2 rfl)

theorem nodes (h : n.Everywhere P) (i : Nat) (hf : n.fields[i]? = some (name, .nodes (some ns)) := by rfl) :
    ∀ m ∈ ns, m.Everywhere P :=
  fun _ hm => h.of_mem_fields (mem_of_getElem? hf) hm

theorem keyed (h : n.Everywhere P) (i : Nat) (hf : n.fields[i]? = some (name, .keyed keys ns)) :
    ∀ m ∈ ns, m.Everywhere P :=
  fun _ hm => h.of_mem_fields (mem_of_getElem? hf) hm

end Everywhere

/-- The nodes in the fields of a node, the missing ones with them. -/
def parts (n : Node) : List Node := n.fields.flatMap fun f => f.2.members

theorem children_eq (n : Node) : n.children = n.parts.filter isPresent := List.filter_flatMap.symm

theorem everywhere_iff : n.Everywhere P ↔ (n.isPresent = true → P n) ∧ ∀ c ∈ n.parts, c.Everywhere P := by
  constructor
  · intro h
    refine ⟨fun hn => h.here hn, fun c hc => ?_⟩
    obtain ⟨f, hf, hmem⟩ := mem_flatMap.1 hc
    exact h.of_mem_fields hf hmem
  · rintro ⟨hn, hparts⟩ m hm hpresent
    rcases mem_walk_iff.1 hm with rfl | ⟨c, hc, hm⟩
    · exact hn hpresent
    · rw [children_eq] at hc
      exact hparts c (mem_filter.1 hc).1 m hm hpresent

theorem Everywhere.of_mem_walk (h : n.Everywhere P) (hm : m ∈ n.walk) : m.Everywhere P := by
  induction n using walk.induct with
  | case1 n ih =>
    rcases mem_walk_iff.1 hm with rfl | ⟨c, hc, hm⟩
    · exact h
    · have hpart := (mem_filter.1 (children_eq n ▸ hc)).1
      exact ih ⟨c, mem_reverse.2 hc⟩ ((everywhere_iff.1 h).2 c hpart) hm

theorem allLegible_iff : AllLegible ns ↔ ∀ n ∈ ns, n.Legible := by
  induction ns with
  | nil => exact ⟨fun _ => forall_mem_nil _, fun _ => trivial⟩
  | cons n ns ih => simp only [AllLegible, ih, forall_mem_cons]

theorem allWritten_iff : AllWritten ns ↔ ∀ n ∈ ns, n.writes ∧ n.Legible := by
  induction ns with
  | nil => exact ⟨fun _ => forall_mem_nil _, fun _ => trivial⟩
  | cons n ns ih => simp only [AllWritten, ih, forall_mem_cons]

end Node

/-- What a role asks of its node, besides that the node is legible: to write, if texts are cut off there. -/
def Role.Asks : Role → Node → Prop
  | expression, n | argument, n | index, n | entry, n | declared, n => n.writes = true
  | operand, n => n.isPresent = true → n.writes
  | _, _ => True

open Node in
theorem Fits.legible (h : Fits W role n) (hs : n.SliceFree) : n.Legible ∧ role.Asks n := by
  have hall {ns : List Node} {role : Role} (hns : ∀ n ∈ ns, n.SliceFree)
      (ih : ∀ n ∈ ns, n.SliceFree → n.Legible ∧ role.Asks n) : AllLegible ns :=
    allLegible_iff.2 fun n hn => (ih n hn (hns n hn)).1
  induction h with
  | identifier | truth | nothing | literal => exact ⟨trivial, rfl⟩
  | missing => exact ⟨trivial, nofun⟩
  | pass | imports | parameter | typeParameter | signature | interface => exact ⟨trivial, trivial⟩
  | plainArgument _ ih | plainIndex _ ih => exact ih hs
  | present _ ih => exact ⟨(ih hs).1, fun _ => (ih hs).2⟩
  | plainMember _ ih | plainTop _ ih => exact ⟨(ih hs).1, trivial⟩
  | sequence _ _ ih | dictionary _ ih => exact ⟨hall (hs.nodes 0) ih, rfl⟩
  | entry _ _ ih ih' | subscript _ _ ih ih' => exact ⟨⟨(ih (hs.node 0)).symm, (ih' (hs.node 1)).symm⟩, rfl⟩
  | member _ _ ih => exact ⟨(ih (hs.node 0)).symm, rfl⟩
  | call _ _ ihcallee ihargs =>
    have hcallee := ihcallee (hs.node 0)
    have hargs := allWritten_iff.2 fun n hn => (ihargs n hn (hs.nodes 1 rfl n hn)).symm
    exact ⟨⟨hcallee.2, hcallee.1, hargs⟩, rfl⟩
  | namedArgument _ _ ih => exact ⟨(ih (hs.node 1)).symm, rfl⟩
  | slice => cases hs.here
  | unary _ _ ih => exact ⟨(ih (hs.node 1)).1, rfl⟩
  | binary _ _ _ ihleft ihright | logical _ _ _ ihleft ihright =>
    exact ⟨⟨(ihleft (hs.node 1)).1, (ihright (hs.node 2)).1⟩, rfl⟩
  | comprehension hkind _ _ _ _ _ ihelement ihtarget ihsource ihcondition ihkey =>
    refine ⟨⟨(ihelement (hs.node 0)).1, (ihtarget (hs.node 1)).1, (ihsource (hs.node 2)).1,
      (ihcondition (hs.node 3)).1, (ihkey (hs.node 5)).1⟩, ?_⟩
    simp only [mem_cons, not_mem_nil, or_false] at hkind
    rcases hkind with rfl | rfl | rfl | rfl <;> rfl
  | assignment _ _ _ ih ih' | declared _ _ _ ih ih' => exact ⟨⟨(ih (hs.node 0)).1, (ih' (hs.node 1)).1⟩, rfl⟩
  | expressionStatement _ ih | declaration _ ih =>
    have hvalue := ih (hs.node 0)
    exact ⟨⟨fun _ => hvalue.2, hvalue.1⟩, trivial⟩
  | finalDecl _ _ _ ihtarget ihvalue =>
    exact ⟨⟨(ihtarget (hs.node 0)).1, (ihvalue (hs.node 1)).1⟩, trivial⟩
  | returns _ ih | raises _ ih => exact ⟨(ih (hs.node 0)).symm, trivial⟩
  | conditional _ _ _ ihcondition ihthen ihelse | switch _ _ _ ihcondition ihthen ihelse =>
    exact ⟨⟨(ihcondition (hs.node 0)).1, hall (hs.nodes 1) ihthen, hall (hs.nodes 2) ihelse⟩, trivial⟩
  | forLoop _ _ ih ih' | case _ _ ih ih' => exact ⟨⟨(ih (hs.node 0)).1, hall (hs.nodes 1) ih'⟩, trivial⟩
  | whileLoop _ _ ihcondition ihbody =>
    have hcondition := ihcondition (hs.node 0)
    exact ⟨⟨hcondition.2, hcondition.1, hall (hs.nodes 1) ihbody⟩, trivial⟩
  | annotationUse _ _ _ _ ihargs ihvalues =>
    exact ⟨⟨hall (hs.nodes 1) ihargs, hall (hs.keyed 2 rfl) ihvalues⟩, trivial⟩
  | function _ _ _ _ _ _ _ ihbody ihannotations =>
    exact ⟨⟨hall (hs.nodes 10) ihannotations, hall (hs.nodes 2) ihbody⟩, trivial⟩
  | classDecl _ _ _ _ _ _ ih | enumMember _ _ ih => exact ⟨hall (hs.nodes 1) ih, trivial⟩
  | dataClass _ _ _ _ _ _ ihbody => exact ⟨hall (hs.nodes 2) ihbody, trivial⟩
  | enumDecl _ _ _ _ ihmembers ihbody =>
    exact ⟨⟨hall (hs.nodes 1) ihmembers, hall (hs.nodes 2) ihbody⟩, trivial⟩
  | module _ ih => exact ⟨hall (hs.nodes 0) ih, trivial⟩

/-! ### The nodes under a node -/

def Fills (W : TokenKind → String → Prop) (fs : List (String × Field)) : Prop :=
  ∀ f ∈ fs, ∀ c ∈ f.2.members, ∃ role, Fits W role c

section

theorem fills_nil : Fills W [] := forall_mem_nil _

theorem fills_skip {f : Field} (hf : f.members = []) (h : Fills W fs) : Fills W ((name, f) :: fs) :=
  forall_mem_cons.2 ⟨fun _ hc => (not_mem_nil (hf ▸ hc)).elim, h⟩

theorem fills_node (hn : Fits W role n) (h : Fills W fs) : Fills W ((name, .node n) :: fs) :=
  forall_mem_cons.2 ⟨fun _ hc => ⟨role, mem_singleton.1 hc ▸ hn⟩, h⟩

theorem fills_nodes (hns : ∀ m ∈ ns, Fits W role m) (h : Fills W fs) :
    Fills W ((name, .nodes (some ns)) :: fs) :=
  forall_mem_cons.2 ⟨fun c hc => ⟨role, hns c hc⟩, h⟩

theorem fills_keyed (hns : ∀ m ∈ ns, Fits W role m) (h : Fills W fs) : Fills W ((name, .keyed keys ns) :: fs) :=
  forall_mem_cons.2 ⟨fun c hc => ⟨role, hns c hc⟩, h⟩

theorem Fits.fills (h : Fits W role n) : Fills W n.fields := by
  induction h with
  | plainArgument _ ih | plainIndex _ ih | present _ ih | plainMember _ ih | plainTop _ ih => exact ih
  | _ =>
    repeat' first
      | exact fills_nil
      | refine fills_skip rfl ?_
      | refine fills_node (by assumption) ?_
      | refine fills_nodes (by assumption) ?_
      | refine fills_keyed (by assumption) ?_

end

theorem Fits.of_mem_walk (h : Fits W role n) (hm : m ∈ n.walk) : ∃ role', Fits W role' m := by
  induction n using Node.walk.induct generalizing role with
  | case1 n ih =>
    rcases Node.mem_walk_iff.1 hm with rfl | ⟨c, hc, hm⟩
    · exact ⟨role, h⟩
    · obtain ⟨f, hf, hcf⟩ := mem_flatMap.1 hc
      obtain ⟨role', hc'⟩ := h.fills f hf c (mem_filter.1 hcf).1
      exact ih ⟨c, mem_reverse.2 hc⟩ hc' hm

/-- Writing only appends: when a node of a parsed program that has no slice in it is written, whatever was in the
output before stays there, unchanged and in front. -/
theorem emit_appends {tokens : List Token} {m n : Node} (hm : parseTokens tokens = .ok m) (hn : n ∈ m.walk)
    (hs : n.SliceFree) (target : Target) (e : Emitter) :
    e.output.toList <+: (n.emit target e).2.output.toList := by
  obtain ⟨role, hfits⟩ := (parseTokens_fits (W := fun _ _ => True) (fun _ _ => trivial) hm).of_mem_walk hn
  obtain ⟨pieces, _, _, hrun⟩ := renders_node n (hfits.legible hs).1 e.context e.output
  refine ⟨pieces, ?_⟩
  rw [show n.emit target e = _ from hrun]
  exact (Array.toList_append).symm

def indexTokens (inside : List Token) : List Token :=
  [⟨.identifier, some "x", 1, 0, none⟩, ⟨.assign, some "=", 1, 2, none⟩, ⟨.identifier, some "a", 1, 4, none⟩,
    ⟨.lbracket, some "[", 1, 5, none⟩] ++ inside ++
  [⟨.rbracket, some "]", 1, 9, none⟩, ⟨.semicolon, some ";", 1, 10, none⟩, ⟨.newline, some "\\\\n", 1, 11, none⟩,
    ⟨.eof, none, 1, 0, none⟩]

def indexStatement (index : Node) : Node :=
  .expression (.assignment (.identifier "x") (.subscript (.identifier "a") index) (some "=") none ⟨1, 2⟩) true

theorem mem_walk_module (hn : n.isPresent) : n ∈ (Node.module [n]).walk :=
  Node.mem_walk_of_mem_children (Node.mem_children mem_cons_self mem_cons_self hn) (Node.mem_walk_self n)

theorem emit_appends_index :
    let tokens := indexTokens [⟨.number, some "1", 1, 6, none⟩]
    let n := indexStatement (.literal (.text "1") .number)
    let e : Emitter := { output := #["# text\n"] }
    parseTokens tokens = .ok (.module [n]) ∧ n.SliceFree ∧ e.output.toList <+: (n.emit .python e).2.output.toList := by
  intro tokens n e
  have hparse : parseTokens tokens = .ok (.module [n]) := rfl
  have hs : n.SliceFree := by decide +kernel
  exact ⟨hparse, hs, emit_appends hparse (mem_walk_module rfl) hs .python e⟩

/-- With a slice in it, writing a node can take away what was written before. -/
theorem exists_emit_not_appends : ∃ (tokens : List Token) (m n : Node) (e : Emitter), parseTokens tokens = .ok m ∧
    n ∈ m.walk ∧ ¬ e.output.toList <+: (n.emit .python e).2.output.toList := by
  refine ⟨indexTokens [⟨.number, some "1", 1, 6, none⟩, ⟨.colon, some ":", 1, 7, none⟩,
    ⟨.number, some "2", 1, 8, none⟩], .module [_], indexStatement (.slice (.literal (.text "1") .number)
      (.literal (.text "2") .number) .missing), { output := #["# text\n"] }, ?_, mem_walk_module rfl, ?_⟩
  · rfl
  · decide +kernel

end BraceLang
