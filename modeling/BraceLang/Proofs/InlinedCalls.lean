import BraceLang.Proofs.Appending
import BraceLang.Proofs.Inlining
import Mathlib.Algebra.GroupWithZero.Nat

/-!
# What inlining adds

Every name that is replaced adds the calls of the value that is written for it, and nothing else adds or removes calls
(`callCount_inlined`).
-/

namespace BraceLang

open List

namespace Node

/-! ### Counting calls -/

def callsOf (ns : List Node) : Nat := (ns.map callCount).sum

@[simp] theorem callsOf_nil : callsOf [] = 0 := rfl

@[simp] theorem callsOf_cons (n : Node) (ns : List Node) : callsOf (n :: ns) = n.callCount + callsOf ns := rfl

@[simp] theorem callsOf_append (ns ms : List Node) : callsOf (ns ++ ms) = callsOf ns + callsOf ms := by
  simp [callsOf]

theorem callCount_missing : missing.callCount = 0 := by
  rw [callCount, walk_eq]
  rfl

theorem callsOf_filter (ns : List Node) : callsOf (ns.filter isPresent) = callsOf ns := by
  induction ns with
  | nil => rfl
  | cons n ns ih =>
    cases n with
    | missing =>
      show callsOf (ns.filter isPresent) = missing.callCount + callsOf ns
      rw [callCount_missing, ih, Nat.zero_add]
    | _ => exact congrArg (_ + ·) ih

theorem callCount_eq (n : Node) : n.callCount = (if n.isCall then 1 else 0) + callsOf n.parts := by
  have hchildren : (n.children.reverse.flatMap walk).countP isCall = callsOf n.parts := by
    rw [countP_flatMap, map_reverse, sum_reverse, children_eq, ← callsOf_filter n.parts]
    rfl
  rw [callCount, walk_eq, countP_cons, hchildren, Nat.add_comm]

theorem callCount_argument (name : Option String) (value : Node) :
    (argument name value).callCount = value.callCount := (callCount_eq _).trans (Nat.zero_add _)

/-- The calls of the values that are written for names. -/
def addedCalls (value? : String → Option Node) (names : List String) : Nat :=
  (names.map fun name => ((value? name).map callCount).getD 0).sum

@[simp] theorem addedCalls_append (value? : String → Option Node) (names more : List String) :
    addedCalls value? (names ++ more) = addedCalls value? names + addedCalls value? more := by
  simp [addedCalls]

theorem callCount_add {n n' : Node} (ns ns' : List Node) (h : callsOf ns' = callsOf ns + k)
    (hparts : n.parts = ns := by rfl) (hparts' : n'.parts = ns' := by rfl) (hcall : n'.isCall = n.isCall := by rfl) :
    n'.callCount = n.callCount + k := by
  rw [callCount_eq n', callCount_eq n, hcall, hparts, hparts', h, Nat.add_assoc]

mutual

theorem callCount_filled (value? : String → Option Node) :
    ∀ n : Node, (n.filled value?).callCount = n.callCount + addedCalls value? n.names
  | identifier name => by
    rw [filled]
    split
    · next value hvalue =>
      refine callCount_add [] [value] ?_
      simp [names, addedCalls, hvalue]
    · next hvalue => simp [names, addedCalls, hvalue]
  | member object _ | unary _ object => callCount_add [object] [object.filled value?] (by
      simp [names, callCount_filled value? object])
  | collection items _ => callCount_add items (filledAll value? items)
      (callsOf_filledAll value? items) (append_nil _) (append_nil _)
  | call callee arguments => by
    have hcallee := callCount_filled value? callee
    have harguments := callsOf_filledAll value? arguments
    rw [filled, names]
    refine callCount_add (callee :: (arguments ++ [])) (_ :: (filledAll value? arguments ++ [])) ?_
    cases callee.isSuper <;> simp [hcallee, harguments] <;> omega
  | argument _ value => callCount_add [value] [value.filled value?] (by
      simp [names, callCount_filled value? value])
  | logical _ left right | binary _ left right | subscript left right =>
    callCount_add [left, right] [left.filled value?, right.filled value?] (by
      simp [names, callCount_filled value? left, callCount_filled value? right]
      omega)
  | entry key value | assignment key value _ _ _ =>
    callCount_add [key, value] [key.filled value?, value.filled value?] (by
      simp [names, callCount_filled value? key, callCount_filled value? value]
      omega)
  | comprehension element place source condition _ key =>
    callCount_add [element, place, source, condition, key] [element.filled value?, place.filled value?,
      source.filled value?, condition.filled value?, key.filled value?] (by
        simp [names, callCount_filled value? element, callCount_filled value? place, callCount_filled value? source,
          callCount_filled value? condition, callCount_filled value? key]
        omega)
  | missing | module _ | annotationUse .. | rawCode .. | interface .. | signature .. | parameter .. | typeParameter ..
  | classDecl .. | function .. | block _ | expression .. | pass _ | returns .. | conditional .. | forLoop ..
  | whileLoop .. | switch .. | case .. | literal .. | lambda .. | raises .. | imports _ | slice .. | finalDecl ..
  | dataClass .. | enumMember .. | enumDecl .. => rfl

theorem callsOf_filledAll (value? : String → Option Node) :
    ∀ ns : List Node, callsOf (filledAll value? ns) = callsOf ns + addedCalls value? (allNames ns)
  | [] => rfl
  | n :: ns => by
    have hn := callCount_filled value? n
    have hns := callsOf_filledAll value? ns
    rw [filledAll, allNames, addedCalls_append, callsOf_cons, callsOf_cons, hn, hns]
    omega

end

/-! ### Programs -/

/-- The calls of the values that are written instead of names. -/
def valueCalls (mentions : List Mention) : Nat := (mentions.map fun x => (x.value?.map callCount).getD 0).sum

open Inline

theorem valueCalls_append (xs : List Mention) (names : List String) (scopes : List OwnedScope) :
    valueCalls (xs ++ names.map fun name => Mention.mk name scopes) =
      valueCalls xs + addedCalls (inForce? scopes) names := by
  rw [valueCalls, map_append, sum_append, List.map_map]
  rfl

/-- The second nodes have the calls of the first and of the values that are written between the two states. -/
def Gains (ns ns' : List Node) (s s' : Inlining) : Prop :=
  callsOf ns' + valueCalls s.mentions = callsOf ns + valueCalls s'.mentions

namespace Gains

variable {n n' : Node} {ns ns' ms ms' : List Node} {s s' s'' : Inlining}

theorem refl (ns : List Node) (s : Inlining) : Gains ns ns s s := rfl

theorem append (h : Gains ns ns' s s') (h' : Gains ms ms' s' s'') : Gains (ns ++ ms) (ns' ++ ms') s s'' := by
  unfold Gains at h h' ⊢
  rw [callsOf_append, callsOf_append]
  omega

theorem append_comm (h : Gains (ns ++ ms) (ns' ++ ms') s s') : Gains (ms ++ ns) (ms' ++ ns') s s' := by
  unfold Gains at h ⊢
  rw [callsOf_append] at h ⊢
  rw [callsOf_append] at h ⊢
  omega

theorem node (h : Gains ns ns' s s') (hparts : n.parts = ns := by rfl) (hparts' : n'.parts = ns' := by rfl)
    (hcall : n'.isCall = n.isCall := by rfl) : Gains [n] [n'] s s' := by
  unfold Gains at h ⊢
  rw [callsOf_cons, callsOf_cons, callsOf_nil, callCount_eq n', callCount_eq n, hcall, hparts, hparts']
  omega

end Gains

theorem gains_fill (site : Site) (n : Node) (s : Inlining) :
    Gains [n] [(fill site n s).1] s (fill site n s).2 := by
  have hn := callCount_filled (inForce? (site.scopes s.values)) n
  have hs := valueCalls_append s.mentions n.names (site.scopes s.values)
  show (n.filled _).callCount + 0 + _ = _ + 0 + valueCalls (s.mentions ++ _)
  omega

theorem gains_fillAll (site : Site) (ns : List Node) (s : Inlining) :
    Gains ns (fillAll site ns s).1 s (fillAll site ns s).2 := by
  have hns := callsOf_filledAll (inForce? (site.scopes s.values)) ns
  have hs := valueCalls_append s.mentions (allNames ns) (site.scopes s.values)
  rw [fillAll_eq]
  show callsOf (filledAll _ _) + _ = _ + valueCalls (s.mentions ++ _)
  omega

theorem gains_inlinedExpression (site : Site) (n : Node) (s : Inlining) :
    Gains [n] [(inlinedExpression site n s).1] s (inlinedExpression site n s).2 := by
  by_cases h : (n.shownType site.classes).isEmpty
  · rw [inlinedExpression_of_isEmpty h]
    exact gains_fill site n s
  · obtain ⟨name, value, operator, type, p, rfl⟩ := exists_of_shownType h
    rw [inlinedExpression_assignment h]
    exact ((Gains.refl [identifier name] s).append (gains_fill site value s)).node

mutual

theorem gains_inlined (site : Site) : ∀ (n : Node) (s : Inlining),
    Gains [n] [(n.inlined site s).1] s (n.inlined site s).2
  | module body, s => (gains_inlinedAll site body s).node (append_nil _) (append_nil _)
  | classDecl head body params annotations, s =>
    let within := site.within s.values (classDecl head body params annotations)
    ((gains_inlinedAll within body { s with values := [] }).append (.refl (params ++ (annotations ++ [])) _)).node
  | dataClass name fields body params bases annotations p, s =>
    ((Gains.refl fields s).append ((gains_inlinedAll site body s).append
      (.refl (params ++ (annotations ++ [])) _))).node
  | enumDecl name members body annotations p, s =>
    ((gains_inlinedAll site members s).append ((gains_inlinedAll site body _).append
      (.refl (annotations ++ []) _))).node
  | enumMember name args annotations p, s =>
    ((gains_fillAll site args s).append (.refl (annotations ++ []) _)).node
  | function head params none typeParams annotations, s =>
    let within := site.within s.values (function head params none typeParams annotations)
    ((Gains.refl params _).append ((Gains.refl typeParams _).append
      ((gains_inlinedAll within annotations { s with values := [] }).append (.refl [] _)))).node
  | function head params (some body) typeParams annotations, s => by
    let within := site.within s.values (function head params (some body) typeParams annotations)
    let annotated := inlinedAll within annotations { s with values := [] }
    have hannotations : Gains (typeParams ++ (annotations ++ [])) (typeParams ++ (annotated.1 ++ [])) s annotated.2 :=
      (Gains.refl typeParams _).append ((gains_inlinedAll within annotations _).append (.refl [] _))
    by_cases habstract : head.isAbstract
    · rw [inlined_abstract site habstract]
      exact ((Gains.refl params _).append ((Gains.refl body _).append hannotations)).node
    · rw [inlined_concrete site habstract]
      -- the annotations are written before the body
      exact ((Gains.refl params _).append
        (hannotations.append (gains_inlinedAll within body annotated.2)).append_comm).node
  | annotationUse head args keys values, s => by
    unfold inlined
    split
    · exact ((gains_fillAll site args s).append ((gains_fillAll site values _).append (.refl [] _))).node
    · exact .refl _ s
  | expression value semicolon, s => (gains_inlinedExpression site value s).node
  | returns value _, s | raises value _, s => (gains_fill site value s).node
  | conditional c t e, s | switch c t e, s =>
    ((gains_fill site c s).append ((gains_inlinedAll site t _).append
      ((gains_inlinedAll site e _).append (.refl [] _)))).node
  | forLoop clause body, s | whileLoop clause body, s | case clause body, s =>
    ((gains_fill site clause s).append ((gains_inlinedAll site body _).append (.refl [] _))).node
  | finalDecl place value type, s => by
    have hplace : Gains [place] [argument none (fill site place s).1] s (fill site place s).2 := by
      have h := gains_fill site place s
      unfold Gains at h ⊢
      rwa [callsOf_cons, callCount_argument]
    have h := hplace.append (gains_fill site value (fill site place s).2)
    cases place with
    | identifier name =>
      have hdeclare (t : Inlining) :
          (Inline.declare name (fill site value (fill site (identifier name) s).2).1 t).2.mentions = t.mentions := by
        show (if name.isEmpty then t else _).mentions = _
        split <;> rfl
      exact Gains.node (h.trans (congrArg (_ + valueCalls ·) (hdeclare _).symm))
    | _ => exact h.node
  | missing, s | rawCode .., s | interface .., s | signature .., s | parameter .., s | typeParameter .., s | block _, s
  | pass _, s | identifier _, s | member .., s | literal .., s | collection .., s | call .., s | argument .., s
  | logical .., s | unary .., s | binary .., s | lambda .., s | imports _, s | entry .., s | subscript .., s
  | slice .., s | comprehension .., s | assignment .., s => .refl _ s

theorem gains_inlinedAll (site : Site) : ∀ (ns : List Node) (s : Inlining),
    Gains ns (inlinedAll site ns s).1 s (inlinedAll site ns s).2
  | [], s => .refl [] s
  | n :: ns, s => (gains_inlined site n s).append (gains_inlinedAll site ns (n.inlined site s).2)

end

/-- Inlining adds the calls of the values that are written instead of names, and no others. -/
theorem callCount_inlining (m : Node) : m.inlining.callCount = m.callCount + valueCalls m.mentions :=
  gains_inlined m.site m {}

/-- Inlining adds no call if and only if no value that is written instead of a name has one. -/
theorem callCount_inlining_eq_iff {m : Node} :
    m.inlining.callCount = m.callCount ↔ ∀ x ∈ m.mentions, ∀ value ∈ x.value?, value.callCount = 0 := by
  have hzero : valueCalls m.mentions = 0 ↔ ∀ x ∈ m.mentions, ∀ value ∈ x.value?, value.callCount = 0 := by
    rw [valueCalls, List.sum_eq_zero_iff_forall_eq_nat, forall_mem_map]
    refine forall₂_congr fun x _ => ?_
    cases x.value? with
    | none => exact ⟨nofun, fun _ => rfl⟩
    | some value => exact ⟨fun h _ hvalue => Option.some.inj hvalue ▸ h, fun h => h value rfl⟩
  rw [callCount_inlining, ← hzero]
  omega

/-! ### Inlining again -/

def Site.IsEmpty (site : Site) : Prop := ∀ scope ∈ site.outer, scope.values = []

/-- In a scope without finals the action declares none and replaces no name. -/
abbrev Idle {α : Type} (a : Inline α) : Prop := Takes (·.value? = none) (· = []) (· = []) a

section

variable {site : Site} (hsite : Site.IsEmpty site)
include hsite

theorem Site.IsEmpty.value? (values : ValueScope) (hvalues : values = []) (name : String) :
    (Mention.mk name (site.scopes values)).value? = none := by
  refine findSome?_eq_none_iff.2 fun scope hscope => ?_
  have hvalues : scope.values = [] := by
    rcases mem_cons.1 hscope with rfl | hscope
    · exact hvalues
    · exact hsite scope hscope
  rw [hvalues]
  rfl

theorem Site.IsEmpty.within {values : ValueScope} (h : values = []) (owner : Node) :
    Site.IsEmpty (site.within values owner) := forall_mem_cons.2 ⟨h, hsite⟩

end

mutual

theorem idle_inlined (site : Site) : ∀ (n : Node) (s : Inlining) {site' : Site}, Site.IsEmpty site' →
    Idle ((n.inlined site s).1.inlined site')
  | module body, s, _, h | dataClass _ _ body _ _ _ _, s, _, h =>
    (idle_inlinedAll site body s h).bind fun _ => takes_pure _
  | classDecl head body params annotations, s, _, h => takes_get fun _ hs =>
    (idle_inlinedAll (site.within s.values (classDecl head body params annotations)) body { s with values := [] }
      (h.within hs _)).inScope.bind fun _ => takes_pure _
  | enumDecl name members body annotations p, s, _, h =>
    (idle_inlinedAll site members s h).bind fun _ => (idle_inlinedAll site body _ h).bind fun _ => takes_pure _
  | enumMember name args annotations p, s, _, h => (takes_fillAll h.value? _).bind fun _ => takes_pure _
  | function head params none typeParams annotations, s, _, h => takes_get fun _ hs =>
    ((idle_inlinedAll (site.within s.values (function head params none typeParams annotations)) annotations
      { s with values := [] } (h.within hs _)).bind fun _ => takes_pure _).inScope
  | function head params (some body) typeParams annotations, s, site', h => by
    let within := site.within s.values (function head params (some body) typeParams annotations)
    let annotated := inlinedAll within annotations { s with values := [] }
    by_cases habstract : head.isAbstract
    · have hwritten : Idle ((function head params (some body) typeParams annotated.1).inlined site') := by
        rw [inlined_abstract site' habstract]
        exact takes_get fun _ hs =>
          ((idle_inlinedAll within annotations _ (h.within hs _)).bind fun _ => takes_pure _).inScope
      rw [inlined_abstract site habstract]
      exact hwritten
    · have hwritten : Idle ((function head params (some (inlinedAll within body annotated.2).1) typeParams
          annotated.1).inlined site') := by
        rw [inlined_concrete site' habstract]
        exact takes_get fun _ hs => ((idle_inlinedAll within annotations _ (h.within hs _)).bind fun _ =>
          (idle_inlinedAll within body _ (h.within hs _)).bind fun _ => takes_pure _).inScope
      rw [inlined_concrete site habstract]
      exact hwritten
  | annotationUse head args keys values, s, site', h => by
    have hinlined : ∃ args' values', ((annotationUse head args keys values).inlined site s).1 =
        annotationUse head args' keys values' := by
      unfold inlined
      split
      · exact ⟨_, _, rfl⟩
      · exact ⟨_, _, rfl⟩
    obtain ⟨_, _, hinlined⟩ := hinlined
    rw [hinlined]
    exact takes_annotationUse h.value? head _ _ keys
  | expression value semicolon, s, _, h => (takes_inlinedExpression h.value? _).bind fun _ => takes_pure _
  | returns _ _, _, _, h | raises _ _, _, _, h => (takes_fill h.value? _).bind fun _ => takes_pure _
  | conditional _ t e, _, _, h | switch _ t e, _, _, h =>
    (takes_fill h.value? _).bind fun _ => (idle_inlinedAll site t _ h).bind fun _ =>
      (idle_inlinedAll site e _ h).bind fun _ => takes_pure _
  | forLoop _ body, s, _, h | whileLoop _ body, s, _, h | case _ body, s, _, h =>
    (takes_fill h.value? _).bind fun _ => (idle_inlinedAll site body _ h).bind fun _ => takes_pure _
  | finalDecl place value type, s, _, h => by
    have hwritten (written value : Node) : Idle ((finalDecl (argument none written) value type).inlined _) :=
      (takes_fill h.value? _).bind fun _ => (takes_fill h.value? _).bind fun _ => takes_pure _
    cases place <;> exact hwritten _ _
  | missing, _, _, _ | rawCode .., _, _, _ | interface .., _, _, _ | signature .., _, _, _ | parameter .., _, _, _
  | typeParameter .., _, _, _ | block _, _, _, _ | pass _, _, _, _ | identifier _, _, _, _ | member .., _, _, _
  | literal .., _, _, _ | collection .., _, _, _ | call .., _, _, _ | argument .., _, _, _ | logical .., _, _, _
  | unary .., _, _, _ | binary .., _, _, _ | lambda .., _, _, _ | imports _, _, _, _ | entry .., _, _, _
  | subscript .., _, _, _ | slice .., _, _, _ | comprehension .., _, _, _ | assignment .., _, _, _ => takes_pure _

theorem idle_inlinedAll (site : Site) : ∀ (ns : List Node) (s : Inlining) {site' : Site}, Site.IsEmpty site' →
    Idle (inlinedAll site' (inlinedAll site ns s).1)
  | [], _, _, _ => takes_pure []
  | n :: ns, s, _, h => (idle_inlined site n s h).bind fun _ =>
    (idle_inlinedAll site ns (n.inlined site s).2 h).bind fun _ => takes_pure _

end

theorem value?_of_mem_mentions_inlining {m : Node} (hx : x ∈ m.inlining.mentions) : x.value? = none := by
  have hsite : Site.IsEmpty m.inlining.site := fun _ h => absurd h not_mem_nil
  exact ((idle_inlined m.site m {} hsite {} rfl).2 x hx).resolve_left not_mem_nil

end Node

end BraceLang
