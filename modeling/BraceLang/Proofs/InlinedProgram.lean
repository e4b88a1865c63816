import BraceLang.Proofs.InlinedText
import BraceLang.Proofs.ProgramText

/-!
# Programs are written inlined

Every statement of a parsed program is written as the statement with its finals inlined: `Kept` goes through the kinds
of statements one by one, with what it takes to keep the finals in step (`Sound`), and `toSource_inlining` puts them
together.
-/

namespace BraceLang

open List Node Render

variable {W : TokenKind → String → Prop} {target : Target} {site : Site} {values : ValueScope} {n : Node}
  {scopes : List OwnedScope} {value? : String → Option Node} {r r' : Render String} {params : List Node}
  {methods : Option (List Node)}

/-! ### Scopes whose values are plain -/

variable {semicolon : Bool} {value condition clause : Node} {name : String} {p : Position}
  {body annotations : List Node} {operator type : Option String} {head : FunctionHead} {bases : List String}
  {c : Context}

theorem mem_of_inForce? (h : inForce? scopes name = some value) : ∃ scope ∈ scopes, (name, value) ∈ scope.values := by
  obtain ⟨scope, hscope, hlookup⟩ := exists_of_findSome?_eq_some h
  obtain ⟨before, after, hvalues, _⟩ := lookup_eq_some_iff.1 hlookup
  refine ⟨scope, hscope, ?_⟩
  rw [hvalues]
  simp

/-- Compiled code declares the attributes of a class and the types that calls of classes reveal, so a final of such a
name changes more than the places where it is written. -/
def Spared (target : Target) (classes : List String) (name : String) : Prop :=
  target.isCompiled = true → name ≠ "self" ∧ name ∉ classes

structure SoundFinal (target : Target) (classes : List String) (name : String) (value : Node) : Prop where
  plain : value.IsPlain target
  writes : value.writes
  legible : value.Legible
  spared : Spared target classes name

def Sound (target : Target) (site : Site) (values : ValueScope) : Prop :=
  ∀ scope ∈ site.scopes values, ∀ v ∈ scope.values, SoundFinal target site.classes v.1 v.2

section

theorem Sound.plainScopes (h : Sound target site values) : PlainScopes target (site.scopes values) := by
  intro name value hvalue
  obtain ⟨scope, hscope, hmem⟩ := mem_of_inForce? hvalue
  exact (h scope hscope _ hmem).plain

theorem Sound.legibleValues (h : Sound target site values) : LegibleValues (inForce? (site.scopes values)) := by
  intro name value hvalue
  obtain ⟨scope, hscope, hmem⟩ := mem_of_inForce? hvalue
  exact ⟨(h scope hscope _ hmem).writes, (h scope hscope _ hmem).legible⟩

theorem Sound.inForce?_eq_none (h : Sound target site values) (hcompiled : target.isCompiled)
    (hname : name = "self" ∨ name ∈ site.classes) : inForce? (site.scopes values) name = none := by
  cases hvalue : inForce? (site.scopes values) name with
  | none => rfl
  | some =>
    obtain ⟨scope, hscope, hmem⟩ := mem_of_inForce? hvalue
    obtain ⟨hself, hclass⟩ := (h scope hscope _ hmem).spared hcompiled
    rcases hname with hname | hname
    · exact absurd hname hself
    · exact absurd hname hclass

theorem Sound.within (h : Sound target site values) (owner : Node) : Sound target (site.within values owner) [] := by
  intro scope hscope v hv
  rcases mem_cons.1 hscope with rfl | hscope
  · cases hv
  · exact h scope hscope v hv

theorem Sound.declare (h : Sound target site values) (hvalue : SoundFinal target site.classes name value) :
    Sound target site ((name, value) :: values) := by
  intro scope hscope v hv
  rcases mem_cons.1 hscope with rfl | hscope
  · rcases mem_cons.1 hv with rfl | hv
    · exact hvalue
    · exact h _ mem_cons_self v hv
  · exact h scope (mem_cons_of_mem _ hscope) v hv

theorem Node.Agrees.keeps (h : n.Agrees target) (hsound : Sound target site values) :
    Keeps target site values values (n.render target) ((n.filled (inForce? (site.scopes values))).render target) :=
  (h _ hsound.plainScopes).keeps

end

/-! ### Statements that keep their text -/

namespace Node

def methodAttributes : Node → List String
  | function _ _ (some body) _ _ => allReceiverAttributes body
  | _ => []

theorem classAttributes_eq (body : List Node) :
    classAttributes body = (body.flatMap methodAttributes).eraseDups := rfl

/-- Inlining keeps the text of the statement, also where it goes on with a conditional, and the attributes that it
assigns; and it leaves the statement legible. -/
structure KeptAt (target : Target) (n : Node) (site : Site) (s : Inlining) : Prop where
  sound : Sound target site (n.inlined site s).2.values
  text : Keeps target site s.values (n.inlined site s).2.values (n.render target) ((n.inlined site s).1.render target)
  chain : Keeps target site s.values (n.inlined site s).2.values (renderElse target [n])
    (renderElse target [(n.inlined site s).1])
  attributes : target.isCompiled → (n.inlined site s).1.receiverAttributes = n.receiverAttributes ∧
    (n.inlined site s).1.methodAttributes = n.methodAttributes
  legible : n.Legible → (n.inlined site s).1.Legible

/-- The same wherever the statement stands in a program with the given classes. -/
def Kept (target : Target) (classes : List String) (n : Node) : Prop :=
  ∀ (site : Site) (s : Inlining), site.classes = classes → Sound target site s.values → n.KeptAt target site s

structure AllKeptAt (target : Target) (ns : List Node) (site : Site) (s : Inlining) : Prop where
  sound : Sound target site (inlinedAll site ns s).2.values
  all : Keeps target site s.values (inlinedAll site ns s).2.values (renderAll target ns)
    (renderAll target (inlinedAll site ns s).1)
  following (separator : String) : Keeps target site s.values (inlinedAll site ns s).2.values
    (renderFollowing target separator ns) (renderFollowing target separator (inlinedAll site ns s).1)
  attributes : target.isCompiled →
    allReceiverAttributes (inlinedAll site ns s).1 = allReceiverAttributes ns ∧
    (inlinedAll site ns s).1.flatMap methodAttributes = ns.flatMap methodAttributes
  legible : AllLegible ns → AllLegible (inlinedAll site ns s).1

end Node

section

variable {classes : List String} {s : Inlining} {ns : List Node} {values' : ValueScope}

theorem allKept (h : ∀ n ∈ ns, n.Kept target classes) (hclasses : site.classes = classes)
    (hsound : Sound target site s.values) : AllKeptAt target ns site s := by
  induction ns generalizing s with
  | nil => exact ⟨hsound, keeps_pure _, fun _ => keeps_pure _, fun _ => ⟨rfl, rfl⟩, id⟩
  | cons n ns ih =>
    obtain ⟨hn, hns⟩ := forall_mem_cons.1 h
    have hhead := hn site s hclasses hsound
    have htail := ih hns hhead.sound
    refine ⟨htail.sound, hhead.text.append htail.all, fun separator => ?_, fun hcompiled => ?_,
      fun hlegible => ⟨hhead.legible hlegible.1, htail.legible hlegible.2⟩⟩
    · exact (keeps_pure _).append (hhead.text.append (htail.following separator))
    · obtain ⟨hassigned, hmethod⟩ := hhead.attributes hcompiled
      obtain ⟨hallAssigned, hmethods⟩ := htail.attributes hcompiled
      refine ⟨?_, ?_⟩
      · show receiverAttributes (n.inlined site s).1 ++ allReceiverAttributes (inlinedAll site ns _).1 = _
        rw [hassigned, hallAssigned]
        rfl
      · show ((n.inlined site s).1 :: (inlinedAll site ns _).1).flatMap methodAttributes = _
        rw [flatMap_cons, flatMap_cons, hmethod, hmethods]

theorem keeps_spaced (hn : n.Kept target classes) (hns : ∀ m ∈ ns, m.Kept target classes)
    (hclasses : site.classes = classes) (hsound : Sound target site s.values) (separator : String) :
    Keeps target site s.values (inlinedAll site (n :: ns) s).2.values
      (n.render target ++ renderFollowing target separator ns)
      ((n.inlined site s).1.render target ++
        renderFollowing target separator (inlinedAll site ns (n.inlined site s).2).1) := by
  have hhead := hn site s hclasses hsound
  exact hhead.text.append ((allKept hns hclasses hhead.sound).following separator)

theorem keeps_else (h : ∀ n ∈ ns, n.Kept target classes) (hclasses : site.classes = classes)
    (hsound : Sound target site s.values) :
    Keeps target site s.values (inlinedAll site ns s).2.values (renderElse target ns)
      (renderElse target (inlinedAll site ns s).1) := by
  match ns, h with
  | [], _ => exact keeps_pure _
  | [n], h => exact (h n mem_cons_self site s hclasses hsound).chain
  | n :: m :: ns, h =>
    have hblock := (allKept h hclasses hsound).all.block "else:\n"
    have helse (k l : Node) (ks : List Node) : renderElse target (k :: l :: ks) =
        Render.block "else:\n" (renderAll target (k :: l :: ks)) := by cases k <;> rfl
    rw [helse]
    exact (congrArg (Keeps target site s.values _ _) (helse _ _ _)).mpr hblock

theorem kept_of_keeps
    (hrender : renderElse target [n] = Render.block "else:\n" (n.render target ++ pure ""))
    (h : ∀ (site : Site) (s : Inlining), site.classes = classes → Sound target site s.values →
      renderElse target [(n.inlined site s).1] =
        Render.block "else:\n" ((n.inlined site s).1.render target ++ pure "") ∧
      Sound target site (n.inlined site s).2.values ∧
      Keeps target site s.values (n.inlined site s).2.values (n.render target)
        ((n.inlined site s).1.render target) ∧
      (target.isCompiled = true → (n.inlined site s).1.receiverAttributes = n.receiverAttributes ∧
        (n.inlined site s).1.methodAttributes = n.methodAttributes) ∧
      (n.Legible → (n.inlined site s).1.Legible)) : n.Kept target classes := by
  intro site s hclasses hs
  obtain ⟨hrender', hsound, htext, hattributes, hlegible⟩ := h site s hclasses hs
  refine ⟨hsound, htext, ?_, hattributes, hlegible⟩
  rw [hrender, hrender']
  exact (htext.append (keeps_pure _)).block _

/-! ### Expressions as statements -/

theorem revealedType_filled (classes : List String) (value? : String → Option Node) (n : Node) :
    revealedType classes (n.filled value?) = revealedType classes n ∨
    revealedType classes (n.filled value?) = none ∧
      ∃ name arguments value, n = call (identifier name) arguments ∧ value? name = some value := by
  cases n with
  | identifier =>
    refine .inl ?_
    rw [filled]
    split <;> rfl
  | call callee arguments =>
    cases callee with
    | identifier name =>
      rw [filled]
      split
      · exact .inl rfl
      · rw [filled]
        split
        · next value hvalue => exact .inr ⟨rfl, name, arguments, value, rfl, hvalue⟩
        · exact .inl rfl
    | _ => exact .inl rfl
  | _ => exact .inl rfl

theorem isEmpty_shownType_filled (h : (n.shownType classes).isEmpty) :
    ((n.filled value?).shownType classes).isEmpty := by
  cases n with
  | assignment place value operator type p =>
    cases place with
    | identifier name =>
      show ((assignment ((identifier name).filled value?) (value.filled value?) operator type p).shownType
        classes).isEmpty
      rw [filled]
      split
      · rfl
      · rcases revealedType_filled classes value? value with hsame | ⟨hnone, _⟩
        · show ((revealedType classes (value.filled value?)).getD "").isEmpty
          rw [hsame]
          exact h
        · show ((revealedType classes (value.filled value?)).getD "").isEmpty
          rw [hnone]
          rfl
    | _ => rfl
  | identifier =>
    rw [filled]
    split <;> rfl
  | _ => rfl

theorem render_expression_plain (hpresent : n.isPresent) (h : (n.shownType c.classNames).isEmpty) :
    (expression n semicolon).render target c = (do line (← n.render target) ++ pure "\n" : Render String) c := by
  cases n with
  | missing => cases hpresent
  | assignment place value =>
    cases place with
    | identifier =>
      have hempty : ((revealedType c.classNames value).getD "").isEmpty := h
      show (if ((revealedType c.classNames value).getD "").isEmpty then _ else _ : Render String) c = _
      rw [if_pos hempty]
    | _ => rfl
  | _ => rfl

theorem render_expression_revealed (h : ¬((revealedType c.classNames value).getD "").isEmpty) :
    (expression (assignment (identifier name) value operator type p) semicolon).render target c =
      (do line (name ++ ": " ++ (revealedType c.classNames value).getD "" ++ " = " ++ (← value.render target)) ++
        pure "\n" : Render String) c := by
  show (if ((revealedType c.classNames value).getD "").isEmpty then _ else _ : Render String) c = _
  rw [if_neg h]

theorem keeps_declared {type : String} (hplace : place.Agrees target) (hvalue : value.Agrees target)
    (hsound : Sound target site values) :
    Keeps target site values values ((assignment place value operator (some type) p).render target)
      (((assignment place value operator (some type) p).filled (inForce? (site.scopes values))).render target) := by
  refine (hplace.keeps hsound).bind fun _ => keeps_get fun c _ _ _ => ?_
  rw [isPresent_filled]
  exact ((hvalue.keeps hsound).bind fun _ => keeps_pure _).ite (keeps_pure _)

theorem keeps_plain (hpresent : n.isPresent) (hpresent' : n'.isPresent)
    (h : (n.shownType site.classes).isEmpty) (h' : (n'.shownType site.classes).isEmpty)
    (hkeeps : Keeps target site values values (n.render target) (n'.render target)) :
    Keeps target site values values ((expression n semicolon).render target)
      ((expression n' semicolon).render target) := by
  have hline : Keeps target site values values (do line (← n.render target) ++ pure "\n" : Render String)
      (do line (← n'.render target) ++ pure "\n" : Render String) :=
    hkeeps.bind fun _ => (keeps_line _).append (keeps_pure _)
  intro c hc
  rw [render_expression_plain (c := site.context target values c) hpresent (by rw [← hc] at h; exact h),
    render_expression_plain (c := site.bareContext c) hpresent' (by rw [← hc] at h'; exact h')]
  exact hline c hc

theorem render_declared_bare {type : String} (hbare : c.Bare) (hpython : target.isCompiled = false)
    (hpresent : n.isPresent) :
    (assignment (identifier name) n operator (some type) p).render target c =
      (name ++ ": " ++ type ++ " = " ++ (n.render target c).1, (n.render target c).2) := by
  have hname : (identifier name).render target c = (name, c) := by
    show ((c.finals.findSome? (·.lookup name)).getD name, c) = _
    rw [findSome?_bare hbare]
    rfl
  have htype : target.typeName c.typeParams type = type := by
    unfold Target.typeName
    rw [hpython]
    rfl
  show (if n.isPresent then
      (do return ((identifier name).render target c).1 ++ ": " ++
        target.typeName ((identifier name).render target c).2.typeParams type ++ " = " ++ (← n.render target))
    else _ : Render String) ((identifier name).render target c).2 = _
  rw [hname, if_pos hpresent]
  show (name ++ ": " ++ target.typeName c.typeParams type ++ " = " ++ (n.render target c).1, _) = _
  rw [htype]

/-- An assignment whose value reveals a type.  Where inlining hides the type, it is written as a declared one. -/
theorem keeps_revealed (hvalue : value.Agrees target) (hsound : Sound target site values)
    (h : ¬((revealedType site.classes value).getD "").isEmpty) :
    Keeps target site values values
      ((expression (assignment (identifier name) value operator type p) semicolon).render target)
      ((expression (assignment (identifier name) (value.filled (inForce? (site.scopes values))) operator
        (some ((revealedType site.classes value).getD "")) p) semicolon).render target) := by
  let written := value.filled (inForce? (site.scopes values))
  let revealed := (revealedType site.classes value).getD ""
  intro c hc
  have hcontext : (site.context target values c).classNames = site.classes := hc
  have hbare : (site.bareContext c).classNames = site.classes := hc
  have hline : Keeps target site values values
      (do line (name ++ ": " ++ revealed ++ " = " ++ (← value.render target)) ++ pure "\n" : Render String)
      (do line (name ++ ": " ++ revealed ++ " = " ++ (← written.render target)) ++ pure "\n" : Render String) :=
    (hvalue.keeps hsound).bind fun _ => (keeps_line _).append (keeps_pure _)
  obtain ⟨text, htext, htext'⟩ := hline c hc
  refine ⟨text, ?_, ?_⟩
  · rw [render_expression_revealed (by rw [hcontext]; exact h), hcontext]
    exact htext
  · rw [← htext']
    rcases revealedType_filled site.classes (inForce? (site.scopes values)) value with hsame | hhidden
    · rw [render_expression_revealed (by rw [hbare, hsame]; exact h), hbare, hsame]
    · obtain ⟨hnone, called, arguments, replaced, hcall, hforce⟩ := hhidden
      -- for the compiled target no final has the name of a class
      have hpython : target.isCompiled = false := by
        rw [Bool.eq_false_iff]
        intro hcompiled
        have hclass : called ∈ site.classes := by
          by_contra hclass
          exact h (by simp [hcall, revealedType, hclass])
        rw [hsound.inForce?_eq_none hcompiled (.inr hclass)] at hforce
        cases hforce
      have hpresent : written.isPresent := by
        rw [isPresent_filled, hcall]
        rfl
      have hplain : ((revealedType (site.bareContext c).classNames written).getD "").isEmpty := by
        rw [hbare, hnone]
        rfl
      let declared := assignment (identifier name) written operator (some revealed) p
      rw [render_expression_plain (n := declared) rfl hplain]
      show (line (declared.render target (site.bareContext c)).1 ++ pure "\n")
        (declared.render target (site.bareContext c)).2 = _
      rw [render_declared_bare (site.bare_bareContext c) hpython hpresent]
      rfl

theorem receiverAttributes_filled (hsound : Sound target site values) (hcompiled : target.isCompiled) :
    receiverAttributes (expression (n.filled (inForce? (site.scopes values))) semicolon) =
      receiverAttributes (expression n semicolon) := by
  cases n with
  | identifier =>
    rw [filled]
    split <;> rfl
  | assignment place value operator type p =>
    cases place with
    | identifier =>
      rw [filled, filled]
      split <;> rfl
    | member object name =>
      cases object with
      | identifier object =>
        rw [filled, filled, filled]
        split
        · next replaced hforce =>
          have hself : object ≠ "self" := by
            rintro rfl
            rw [hsound.inForce?_eq_none hcompiled (.inl rfl)] at hforce
            cases hforce
          exact (if_neg hself).symm
        · rfl
      | _ => rfl
    | _ => rfl
  | _ => rfl

/-- Expressions as statements: `hvalue` is about the text of a whole line, `hassigned` about that of a value which
reveals a type. -/
theorem kept_expression (hpresent : value.isPresent)
    (hvalue : ∀ (site : Site) (values : ValueScope), Sound target site values →
      Keeps target site values values (value.render target)
        ((value.filled (inForce? (site.scopes values))).render target))
    (hassigned : ∀ name assigned operator type p, value = assignment (identifier name) assigned operator type p →
      assigned.Agrees target) : (expression value semicolon).Kept target classes := by
  refine kept_of_keeps rfl fun site s hclasses hsound => ?_
  have hinlined : (expression value semicolon).inlined site s =
      (expression (inlinedExpression site value s).1 semicolon, (inlinedExpression site value s).2) := rfl
  rw [hinlined]
  by_cases hempty : (value.shownType site.classes).isEmpty
  · rw [inlinedExpression_of_isEmpty hempty]
    refine ⟨rfl, hsound, ?_, fun hcompiled => ⟨receiverAttributes_filled hsound hcompiled, rfl⟩, fun hlegible =>
      ⟨fun _ => writes_filled (hlegible.1 hpresent), legible_filled hsound.legibleValues value hlegible.2⟩⟩
    exact keeps_plain hpresent ((isPresent_filled value).trans hpresent) hempty (isEmpty_shownType_filled hempty)
      (hvalue site s.values hsound)
  · obtain ⟨name, assigned, operator, type, p, rfl⟩ := exists_of_shownType hempty
    rw [inlinedExpression_assignment hempty]
    exact ⟨rfl, hsound, keeps_revealed (hassigned _ _ _ _ _ rfl) hsound hempty, fun _ => ⟨rfl, rfl⟩, fun hlegible =>
      ⟨fun _ => rfl, trivial, legible_filled hsound.legibleValues assigned hlegible.2.2⟩⟩

/-! ### Other statements -/

theorem kept_unchanged (hinlined : ∀ site s, n.inlined site s = (n, s))
    (hrender : renderElse target [n] = Render.block "else:\n" (n.render target ++ pure ""))
    (h : ∀ (site : Site) (values : ValueScope), Keeps target site values values (n.render target) (n.render target)) :
    n.Kept target classes := by
  refine kept_of_keeps hrender fun site s _ hsound => ?_
  rw [hinlined]
  exact ⟨hrender, hsound, h site s.values, fun _ => ⟨rfl, rfl⟩, id⟩

theorem keeps_optional (keyword : String) (hvalue : value.Agrees target) (hsound : Sound target site values) :
    Keeps target site values values
      (if value.isPresent then do line (keyword ++ " " ++ (← value.render target) ++ "\n") else line (keyword ++ "\n"))
      (if (value.filled (inForce? (site.scopes values))).isPresent then
        do line (keyword ++ " " ++ (← (value.filled (inForce? (site.scopes values))).render target) ++ "\n")
      else line (keyword ++ "\n")) := by
  rw [isPresent_filled]
  exact ((hvalue.keeps hsound).bind fun _ => keeps_line _).ite (keeps_line _)

theorem legible_optional (hsound : Sound target site values)
    (h : (value.isPresent = true → value.writes) ∧ value.Legible) :
    ((value.filled (inForce? (site.scopes values))).isPresent = true →
      (value.filled (inForce? (site.scopes values))).writes) ∧
    (value.filled (inForce? (site.scopes values))).Legible := by
  rw [isPresent_filled]
  exact ⟨fun hpresent => writes_filled (h.1 hpresent), legible_filled hsound.legibleValues value h.2⟩

theorem kept_returns (hvalue : value.Agrees target) : (returns value semicolon).Kept target classes :=
  kept_of_keeps rfl fun _ _ _ hsound => ⟨rfl, hsound, keeps_optional "return" hvalue hsound, fun _ => ⟨rfl, rfl⟩,
    legible_optional hsound⟩

theorem kept_raises (hvalue : value.Agrees target) : (raises value semicolon).Kept target classes :=
  kept_of_keeps rfl fun _ _ _ hsound => ⟨rfl, hsound, keeps_optional "raise" hvalue hsound, fun _ => ⟨rfl, rfl⟩,
    legible_optional hsound⟩

theorem kept_conditional (hcondition : condition.Agrees target)
    (hthen : ∀ n ∈ thenBody, n.Kept target classes) (helse : ∀ n ∈ elseBody, n.Kept target classes) :
    (conditional condition thenBody elseBody).Kept target classes := by
  intro site s hclasses hsound
  let s₁ := (Inline.fill site condition s).2
  have hthenKept := allKept (s := s₁) hthen hclasses hsound
  have helseKept := allKept helse hclasses hthenKept.sound
  have hchain (keyword : String) := (hcondition.keeps hsound).bind fun t =>
    (hthenKept.all.block (keyword ++ " " ++ t ++ ":\n")).append (keeps_else helse hclasses hthenKept.sound)
  refine ⟨helseKept.sound, hchain "if", hchain "elif", fun hcompiled => ⟨?_, rfl⟩, fun hlegible =>
    ⟨legible_filled hsound.legibleValues condition hlegible.1, hthenKept.legible hlegible.2.1,
      helseKept.legible hlegible.2.2⟩⟩
  show allReceiverAttributes (inlinedAll site thenBody s₁).1 ++
    allReceiverAttributes (inlinedAll site elseBody (inlinedAll site thenBody s₁).2).1 = _
  rw [(hthenKept.attributes hcompiled).1, (helseKept.attributes hcompiled).1]
  rfl

theorem keeps_clause (hclause : clause.Agrees target)
    (hparts : ∀ operator item source, clause = binary operator item source →
      item.Agrees target ∧ source.Agrees target)
    (hsound : Sound target site values) (hbody : Keeps target site values values' r r')
    (hr : r = Render.deeper (renderAll target body)) (hr' : r' = Render.deeper (renderAll target body')) :
    Keeps target site values values' ((forLoop clause body).render target)
      ((forLoop (clause.filled (inForce? (site.scopes values))) body').render target) := by
  subst hr hr'
  have hfor : Keeps target site values values (line "for ") (line "for ") := keeps_line _
  have hwhole := hfor.append (((hclause.keeps hsound).bind fun t => keeps_pure (t ++ ":\n")).append hbody)
  cases clause with
  | binary =>
    obtain ⟨hitem, hsource⟩ := hparts _ _ _ rfl
    refine (keeps_line _).append (Keeps.append (Keeps.ite ?_ ?_) hbody)
    · exact (hitem.keeps hsound).bind fun _ => (hsource.keeps hsound).bind fun _ => keeps_pure _
    · exact (hclause.keeps hsound).bind fun _ => keeps_pure _
  | identifier =>
    rw [filled] at hwhole ⊢
    revert hwhole
    split <;> exact id
  | _ => exact hwhole

theorem kept_forLoop (hclause : clause.Agrees target)
    (hparts : ∀ operator item source, clause = binary operator item source →
      item.Agrees target ∧ source.Agrees target) (hbody : ∀ n ∈ body, n.Kept target classes) :
    (forLoop clause body).Kept target classes := by
  refine kept_of_keeps rfl fun site s hclasses hsound => ?_
  have hkept := allKept (s := (Inline.fill site clause s).2) hbody hclasses hsound
  exact ⟨rfl, hkept.sound, keeps_clause hclause hparts hsound hkept.all.deeper rfl rfl,
    fun hcompiled => ⟨(hkept.attributes hcompiled).1, rfl⟩, fun hlegible =>
      ⟨legible_filled hsound.legibleValues clause hlegible.1, hkept.legible hlegible.2⟩⟩

theorem kept_whileLoop (hcondition : condition.Agrees target) (hbody : ∀ n ∈ body, n.Kept target classes) :
    (whileLoop condition body).Kept target classes := by
  refine kept_of_keeps rfl fun site s hclasses hsound => ?_
  have hkept := allKept (s := (Inline.fill site condition s).2) hbody hclasses hsound
  have hhead := (hcondition.keeps hsound).bind fun t => keeps_pure (t ++ ":\n")
  exact ⟨rfl, hkept.sound, (keeps_line _).append (hhead.append hkept.all.deeper),
    fun hcompiled => ⟨(hkept.attributes hcompiled).1, rfl⟩, fun hlegible => ⟨writes_filled hlegible.1,
      legible_filled hsound.legibleValues condition hlegible.2.1, hkept.legible hlegible.2.2⟩⟩

def Node.CaseKept (target : Target) (classes : List String) : Node → Prop
  | case value body => value.Agrees target ∧ ∀ n ∈ body, n.Kept target classes
  | _ => False

theorem keeps_cases (h : ∀ n ∈ ns, n.CaseKept target classes) (hclasses : site.classes = classes)
    (hsound : Sound target site s.values) (subject keyword : String) :
    Sound target site (inlinedAll site ns s).2.values ∧
    Keeps target site s.values (inlinedAll site ns s).2.values (renderCases target subject keyword ns)
      (renderCases target subject keyword (inlinedAll site ns s).1) ∧
    (AllLegible ns → AllLegible (inlinedAll site ns s).1) := by
  induction ns generalizing s keyword with
  | nil => exact ⟨hsound, keeps_pure _, id⟩
  | cons n ns ih =>
    obtain ⟨hn, hns⟩ := forall_mem_cons.1 h
    cases n with
    | case value =>
      have hbody := allKept (s := (Inline.fill site value s).2) hn.2 hclasses hsound
      obtain ⟨hrestSound, hrest, hrestLegible⟩ := ih hns hbody.sound "elif "
      have htest := (hn.1.keeps hsound).bind fun t => keeps_pure (subject ++ " == " ++ t ++ ":")
      refine ⟨hrestSound, ?_, fun hlegible => ⟨⟨legible_filled hsound.legibleValues value hlegible.1.1,
        hbody.legible hlegible.1.2⟩, hrestLegible hlegible.2⟩⟩
      exact (keeps_line _).append (htest.append ((keeps_pure _).append (hbody.all.deeper.append hrest)))
    | _ => exact absurd hn id

theorem kept_switch {cases default : List Node} (hsubject : subject.Agrees target)
    (hcases : ∀ n ∈ cases, n.CaseKept target classes) (hdefault : ∀ n ∈ default, n.Kept target classes) :
    (switch subject cases default).Kept target classes := by
  refine kept_of_keeps rfl fun site s hclasses hsound => ?_
  have hcasesKept (t : String) := keeps_cases (s := (Inline.fill site subject s).2) hcases hclasses hsound t "if "
  have hdefaultKept := allKept hdefault hclasses (hcasesKept "").1
  refine ⟨rfl, hdefaultKept.sound, ?_, fun _ => ⟨rfl, rfl⟩, fun hlegible =>
    ⟨legible_filled hsound.legibleValues subject hlegible.1, (hcasesKept "").2.2 hlegible.2.1,
      hdefaultKept.legible hlegible.2.2⟩⟩
  cases default with
  | nil => exact (hsubject.keeps hsound).bind fun t => (hcasesKept t).2.1.append (keeps_pure _)
  | cons => exact (hsubject.keeps hsound).bind fun t => (hcasesKept t).2.1.append (hdefaultKept.all.block _)

/-! ### Finals -/

theorem keeps_of_text {f f' : String → Render String}
    (hr : ∀ c : Context, c.finals = scopeTexts target (site.scopes values) → r c = (t, c))
    (hr' : ∀ c : Context, c.Bare → r' c = (t, c)) (hf : Keeps target site values values' (f t) (f' t)) :
    Keeps target site values values' (r >>= f) (r' >>= f') := by
  intro c hc
  obtain ⟨a, ha, ha'⟩ := hf c hc
  refine ⟨a, ?_, ?_⟩
  · show f (r (site.context target values c)).1 (r (site.context target values c)).2 = _
    rw [hr _ rfl]
    exact ha
  · show f' (r' (site.bareContext c)).1 (r' (site.bareContext c)).2 = _
    rw [hr' _ (site.bare_bareContext c)]
    exact ha'

theorem kept_finalDecl (hplace : place.Agrees target) (hvalue : value.Agrees target)
    (hplaceWrites : place.writes) (hvalueWrites : value.writes) (hvalueLegible : value.Legible)
    (hspared : ∀ name, place = identifier name → Spared target classes name) :
    (finalDecl place value type).Kept target classes := by
  refine kept_of_keeps rfl fun site s hclasses hsound => ?_
  obtain ⟨hplain, htext⟩ := hvalue.isPlain hsound.plainScopes
  have hinlined : ((finalDecl place value type).inlined site s).1 =
      finalDecl (argument none (place.filled (inForce? (site.scopes s.values))))
        (value.filled (inForce? (site.scopes s.values))) type := by cases place <;> rfl
  have hlegible (h : (finalDecl place value type).Legible) :
      ((finalDecl place value type).inlined site s).1.Legible := by
    rw [hinlined]
    exact ⟨⟨writes_filled hplaceWrites, legible_filled hsound.legibleValues place h.1⟩,
      legible_filled hsound.legibleValues value h.2⟩
  -- the place stands in an argument, which is written as the place is
  have hwritten : Keeps target site s.values s.values (place.render target)
      ((argument none (place.filled (inForce? (site.scopes s.values)))).render target) := hplace.keeps hsound
  cases place with
  | identifier name =>
    have hvalues : ((finalDecl (identifier name) value type).inlined site s).2.values =
        if name.isEmpty then s.values
        else (name, value.filled (inForce? (site.scopes s.values))) :: s.values := by
      show Inlining.values (if name.isEmpty then _ else _) = _
      cases name.isEmpty <;> rfl
    rw [hvalues]
    refine ⟨rfl, ?_, hwritten.bind fun _ => keeps_of_text htext hplain ?_, fun _ => ⟨rfl, rfl⟩, hlegible⟩
    · split
      · exact hsound
      · exact hsound.declare ⟨hplain, writes_filled hvalueWrites,
          legible_filled hsound.legibleValues value hvalueLegible, hclasses ▸ hspared name rfl⟩
    · exact (keeps_line _).append ((keeps_line _).append (keeps_setFinal name _))
  | _ =>
    refine ⟨rfl, hsound, hwritten.bind fun _ => keeps_of_text htext hplain ?_, fun _ => ⟨rfl, rfl⟩, hlegible⟩
    exact (keeps_line _).append ((keeps_line _).append (keeps_pure _))

/-! ### Declarations -/

def Node.AnnotationKept (target : Target) : Node → Prop
  | annotationUse _ args _ values => (∀ n ∈ args, n.Agrees target) ∧ ∀ n ∈ values, n.Agrees target
  | _ => False

theorem keeps_decorator (h : n.AnnotationKept target) (hsound : Sound target site s.values) :
    (n.inlined site s).2.values = s.values ∧ (n.inlined site s).1.isRuntime = n.isRuntime ∧
    (n.isRuntime = true → Keeps target site s.values s.values (renderDecorator target n)
      (renderDecorator target (n.inlined site s).1)) ∧
    (n.Legible → (n.inlined site s).1.Legible) := by
  cases n with
  | annotationUse head args keys named =>
    have hargs := agree_list fun n hn => h.1 n hn _ hsound.plainScopes
    have hnamed := agree_list fun n hn => h.2 n hn _ hsound.plainScopes
    by_cases hcall : (decide (head.retention = .runtime) && head.isCall)
    · have hinlined : (annotationUse head args keys named).inlined site s =
          (annotationUse head (filledAll (inForce? (site.scopes s.values)) args) keys
            (filledAll (inForce? (site.scopes s.values)) named),
            (Inline.fillAll site named (Inline.fillAll site args s).2).2) := by
        show (if (decide (head.retention = .runtime) && head.isCall) then _ else _ : Inline Node) s = _
        rw [if_pos hcall]
        show (annotationUse head (Inline.fillAll site args s).1 keys
          (Inline.fillAll site named (Inline.fillAll site args s).2).1, _) = _
        rw [fillAll_eq site args s, fillAll_eq site named]
      rw [hinlined, fillAll_eq, fillAll_eq]
      exact ⟨rfl, rfl, fun _ =>
        (hargs.keeps.bind fun _ => hnamed.keeps.bind fun _ => keeps_pure _).ite (keeps_pure _), fun hlegible =>
          ⟨allLegible_filled hsound.legibleValues args hlegible.1,
            allLegible_filled hsound.legibleValues named hlegible.2⟩⟩
    · have hinlined : (annotationUse head args keys named).inlined site s =
          (annotationUse head args keys named, s) := by
        show (if (decide (head.retention = .runtime) && head.isCall) then _ else _ : Inline Node) s = _
        rw [if_neg hcall]
        rfl
      rw [hinlined]
      refine ⟨rfl, rfl, fun hruntime => ?_, id⟩
      have hname : ¬head.isCall := fun hhead => hcall (Bool.and_eq_true_iff.2 ⟨hruntime, hhead⟩)
      show Keeps target site s.values s.values (if head.isCall then _ else _)
        (if head.isCall then _ else _)
      rw [if_neg hname]
      exact keeps_pure _
  | _ => exact absurd h id

theorem keeps_decorators (h : ∀ n ∈ ns, n.AnnotationKept target) (hsound : Sound target site s.values) :
    (inlinedAll site ns s).2.values = s.values ∧
    Keeps target site s.values s.values (renderDecorators target ns)
      (renderDecorators target (inlinedAll site ns s).1) ∧
    (AllLegible ns → AllLegible (inlinedAll site ns s).1) := by
  induction ns generalizing s with
  | nil => exact ⟨rfl, keeps_pure _, id⟩
  | cons n ns ih =>
    obtain ⟨hn, hns⟩ := forall_mem_cons.1 h
    obtain ⟨hvalues, hruntime, hdecorator, hlegible⟩ := keeps_decorator hn hsound
    obtain ⟨hrestValues, hrest, hrestLegible⟩ := ih (s := (n.inlined site s).2) hns (by rw [hvalues]; exact hsound)
    rw [hvalues] at hrest
    refine ⟨hrestValues.trans hvalues, ?_, fun h => ⟨hlegible h.1, hrestLegible h.2⟩⟩
    show Keeps target site s.values s.values (if n.isRuntime then _ else _)
      (if (n.inlined site s).1.isRuntime then _ else _)
    rw [hruntime]
    by_cases hn : n.isRuntime
    · rw [if_pos hn, if_pos hn]
      exact (hdecorator hn).bind fun _ => hrest.bind fun _ => keeps_pure _
    · rw [if_neg hn, if_neg hn]
      exact hrest

def Node.MemberKept (target : Target) : Node → Prop
  | enumMember _ args _ _ => ∀ n ∈ args, n.Agrees target
  | _ => False

theorem keeps_enumMembers (h : ∀ n ∈ ns, n.MemberKept target) (hsound : Sound target site s.values) :
    (inlinedAll site ns s).2.values = s.values ∧
    Keeps target site s.values s.values (renderMembers target ns) (renderMembers target (inlinedAll site ns s).1) ∧
    (AllLegible ns → AllLegible (inlinedAll site ns s).1) := by
  induction ns generalizing s with
  | nil => exact ⟨rfl, keeps_pure _, id⟩
  | cons n ns ih =>
    obtain ⟨hn, hns⟩ := forall_mem_cons.1 h
    cases n with
    | enumMember name args annotations p =>
      let s₁ := (Inline.fillAll site args s).2
      have hargs : (Inline.fillAll site args s).1 = filledAll (inForce? (site.scopes s.values)) args :=
        congrArg Prod.fst (fillAll_eq site args s)
      have hvalues : s₁.values = s.values := congrArg (fun r => r.2.values) (fillAll_eq site args s)
      obtain ⟨hrestValues, hrest, hrestLegible⟩ := ih (s := s₁) hns (by rw [hvalues]; exact hsound)
      have hlist := (agree_list fun n hn' => hn n hn' _ hsound.plainScopes).keeps
      rw [hvalues] at hrest
      refine ⟨hrestValues.trans hvalues, ?_, fun hlegible => ⟨?_, hrestLegible hlegible.2⟩⟩
      on_goal 2 =>
        rw [hargs]
        exact allLegible_filled hsound.legibleValues args hlegible.1
      show Keeps target site s.values s.values _
        (renderMembers target
          (enumMember name (Inline.fillAll site args s).1 annotations p :: (inlinedAll site ns s₁).1))
      rw [hargs]
      cases args with
      | nil => exact (keeps_line _).append hrest
      | cons => exact (hlist.bind fun _ => keeps_line _).append hrest
    | _ => exact absurd hn id

/-- The body of a function, with a stub instead of the statements of an abstract one. -/
def functionBody (target : Target) (head : FunctionHead) : List Node → Context → Render String
  | [], _ => if head.isAbstract then line "\"\"\"Abstract method.\"\"\"\n" ++ line "pass\n" else line "pass\n"
  | n :: ns, s =>
    if head.isAbstract then line "\"\"\"Abstract method.\"\"\"\n" ++ line "pass\n"
    else
      line ("\"\"\"" ++ head.writtenName s.classStack ++ " " ++ (if s.inClass then "method" else "function") ++
          ".\"\"\"\n") ++
        (n.render target ++ renderAll target ns)

theorem render_function (head : FunctionHead) (params body typeParams annotations : List Node) :
    (function head params (some body) typeParams annotations).render target =
      functionFrame target params head (renderDecorators target annotations) (functionBody target head body) := by
  cases body <;> rfl

theorem keeps_functionFrame (head : FunctionHead) (params : List Node)
    (h : Keeps target (site.within values owner) [] [] q q')
    (h' : ∀ (c : Context) (finals finals' : List FinalScope), Keeps target (site.within values owner) [] values₁
      (k { c with finals := finals }) (k' { c with finals := finals' })) :
    Keeps target site values values (functionFrame target params head q k) (functionFrame target params head q' k') :=
  keeps_get fun c finals finals' _ => Keeps.withFinals <| h.bind fun _ =>
    (keeps_each (fun _ => keeps_line _) _).append ((h' c finals finals').block _)

theorem keeps_stub (habstract : head.isAbstract) (body : List Node) (c c' : Context) :
    Keeps target site values values (functionBody target head body c) (functionBody target head body c') := by
  have hstub (body : List Node) (c : Context) : functionBody target head body c =
      line "\"\"\"Abstract method.\"\"\"\n" ++ line "pass\n" := by
    cases body <;> exact if_pos habstract
  rw [hstub, hstub]
  exact (keeps_line _).append (keeps_line _)

theorem keeps_functionBody (habstract : ¬head.isAbstract) (h : AllKeptAt target body site s)
    (c : Context) (finals finals' : List FinalScope) :
    Keeps target site s.values (inlinedAll site body s).2.values
      (functionBody target head body { c with finals := finals })
      (functionBody target head (inlinedAll site body s).1 { c with finals := finals' }) := by
  cases body with
  | nil =>
    show Keeps target site s.values s.values (if head.isAbstract then _ else _)
      (if head.isAbstract then _ else _)
    rw [if_neg habstract]
    exact keeps_line _
  | cons =>
    show Keeps target site s.values _ (if head.isAbstract then _ else _)
      (if head.isAbstract then _ else _)
    rw [if_neg habstract, if_neg habstract]
    exact (keeps_line _).append h.all

theorem kept_function (hannotations : ∀ n ∈ annotations, n.AnnotationKept target)
    (hbody : ∀ n ∈ body, n.Kept target classes) :
    (function head params (some body) typeParams annotations).Kept target classes := by
  refine kept_of_keeps rfl fun site s hclasses hsound => ?_
  let owner := function head params (some body) typeParams annotations
  let within := site.within s.values owner
  let entered : Inlining := { s with values := [] }
  let annotated := inlinedAll within annotations entered
  have hwithin : within.classes = classes := hclasses
  have hentered : Sound target within entered.values := hsound.within owner
  obtain ⟨hvalues, hdecorators, hannotated⟩ := keeps_decorators hannotations hentered
  have hkept : AllKeptAt target body within annotated.2 := allKept hbody hwithin (by rw [hvalues]; exact hentered)
  by_cases habstract : head.isAbstract
  · have htext : Keeps target site s.values s.values
        (functionFrame target params head (renderDecorators target annotations) (functionBody target head body))
        (functionFrame target params head (renderDecorators target annotated.1) (functionBody target head body)) :=
      keeps_functionFrame head params hdecorators fun _ _ _ => keeps_stub habstract body _ _
    rw [← render_function, ← render_function head params body typeParams annotated.1] at htext
    rw [inlined_abstract site habstract]
    exact ⟨rfl, hsound, htext, fun _ => ⟨rfl, rfl⟩, fun hlegible => ⟨hannotated hlegible.1, hlegible.2⟩⟩
  · have hbodies := keeps_functionBody habstract hkept
    rw [show annotated.2.values = [] from hvalues] at hbodies
    have htext := keeps_functionFrame head params hdecorators hbodies
    rw [← render_function, ← render_function head params _ typeParams] at htext
    rw [inlined_concrete site habstract]
    exact ⟨rfl, hsound, htext, fun hcompiled => ⟨rfl, (hkept.attributes hcompiled).1⟩,
      fun hlegible => ⟨hannotated hlegible.1, hkept.legible hlegible.2⟩⟩

def classBody (target : Target) (head : ClassHead) : List Node → Render String
  | [] => line "pass\n"
  | n :: ns =>
    line ("\"\"\"" ++ head.name ++ " class.\"\"\"\n\n") ++
      (attributes target (target.arrange (classAttributes (n :: ns))) ++
        (n.render target ++ renderFollowing target "\n" ns))

theorem render_classDecl (head : ClassHead) (body params annotations : List Node) :
    (classDecl head body params annotations).render target =
      classFrame target params head (classBody target head body) := by
  cases body <;> rfl

theorem keeps_attributes {names names' : List String} (h : target.isCompiled → names' = names) :
    Keeps target site values values (attributes target names) (attributes target names') := by
  unfold attributes
  cases hcompiled : target.isCompiled with
  | true =>
    rw [h hcompiled]
    exact ((keeps_each (fun _ => keeps_line _) _).append (keeps_pure _)).ite (keeps_pure _)
  | false => exact keeps_pure _

theorem kept_classDecl {head : ClassHead} (hbody : ∀ n ∈ body, n.Kept target classes) :
    (classDecl head body params annotations).Kept target classes := by
  refine kept_of_keeps rfl fun site s hclasses hsound => ?_
  let owner := classDecl head body params annotations
  let within := site.within s.values owner
  let entered : Inlining := { s with values := [] }
  have hwithin : within.classes = classes := hclasses
  have hentered : Sound target within entered.values := hsound.within owner
  have hkept := allKept hbody hwithin hentered
  have hmembers : Keeps target within [] (inlinedAll within body entered).2.values (classBody target head body)
      (classBody target head (inlinedAll within body entered).1) := by
    cases body with
    | nil => exact keeps_line _
    | cons n ns =>
      obtain ⟨hn, hns⟩ := forall_mem_cons.1 hbody
      have hattributes (hcompiled : target.isCompiled) :
          target.arrange (classAttributes (inlinedAll within (n :: ns) entered).1) =
            target.arrange (classAttributes (n :: ns)) := by
        rw [classAttributes_eq, classAttributes_eq, (hkept.attributes hcompiled).2]
      exact (keeps_line _).append
        ((keeps_attributes hattributes).append (keeps_spaced hn hns hwithin hentered "\n"))
  have htext : Keeps target site s.values s.values (classFrame target params head (classBody target head body))
      (classFrame target params head (classBody target head (inlinedAll within body entered).1)) :=
    (Keeps.withFinals (((keeps_pure _).ite (keeps_pure _)).append
      ((keeps_pure _).append hmembers.deeper))).withinClass _ _
  rw [← render_classDecl head body params annotations, ← render_classDecl head _ params annotations] at htext
  exact ⟨rfl, hsound, htext, fun _ => ⟨rfl, rfl⟩, hkept.legible⟩

theorem kept_dataClass {fields : List Node} (hbody : ∀ n ∈ body, n.Kept target classes) :
    (dataClass name fields body params bases annotations p).Kept target classes := by
  refine kept_of_keeps rfl fun site s hclasses hsound => ?_
  have hkept : AllKeptAt target body site s := allKept hbody hclasses hsound
  have hframe {r r' : Render String} (h : Keeps target site s.values (inlinedAll site body s).2.values r r') :
      Keeps target site s.values (inlinedAll site body s).2.values (dataClassFrame name fields params bases r)
        (dataClassFrame name fields params bases r') := by
    refine Keeps.withinClass ((keeps_pure _).append ((keeps_pure _).append (Keeps.deeper ?_))) _ _
    exact (keeps_line _).append ((keeps_each (fun _ => keeps_line _) _).append h)
  refine ⟨rfl, hkept.sound, ?_, fun _ => ⟨rfl, rfl⟩, hkept.legible⟩
  cases body with
  | nil => exact hframe ((keeps_line _).ite (keeps_pure _))
  | cons n =>
    obtain ⟨hn, hns⟩ := forall_mem_cons.1 hbody
    exact hframe (((keeps_pure _).ite (keeps_pure _)).append (keeps_spaced hn hns hclasses hsound "\n"))

theorem kept_enumDecl {members : List Node} (hmembers : ∀ n ∈ members, n.MemberKept target)
    (hbody : ∀ n ∈ body, n.Kept target classes) : (enumDecl name members body annotations p).Kept target classes := by
  refine kept_of_keeps rfl fun site s hclasses hsound => ?_
  let listed := inlinedAll site members s
  obtain ⟨hvalues, hlisted, hlistedLegible⟩ := keeps_enumMembers hmembers hsound
  have hentered : Sound target site listed.2.values := by
    rw [hvalues]
    exact hsound
  have hkept := allKept hbody hclasses hentered
  have hempty : listed.1.isEmpty = members.isEmpty := by cases members <;> rfl
  have hframe {r r' : Render String} (h : Keeps target site s.values (inlinedAll site body listed.2).2.values r r') :
      Keeps target site s.values (inlinedAll site body listed.2).2.values
        (enumFrame name (renderMembers target members) r) (enumFrame name (renderMembers target listed.1) r') :=
    ((keeps_pure _).append (((keeps_line _).append (hlisted.append h)).deeper)).withinClass _ _
  refine ⟨rfl, hkept.sound, ?_, fun _ => ⟨rfl, rfl⟩, fun hlegible =>
    ⟨hlistedLegible hlegible.1, hkept.legible hlegible.2⟩⟩
  cases body with
  | nil =>
    have hbare : Keeps target site s.values listed.2.values (if members.isEmpty then line "pass\n" else pure "")
        (if listed.1.isEmpty then line "pass\n" else pure "") := by
      rw [hempty, show listed.2.values = s.values from hvalues]
      exact (keeps_line _).ite (keeps_pure _)
    exact hframe hbare
  | cons n =>
    obtain ⟨hn, hns⟩ := forall_mem_cons.1 hbody
    have hgap : Keeps target site s.values s.values (if members.isEmpty then pure "" else pure "\n")
        (if listed.1.isEmpty then pure "" else pure "\n") := by
      rw [hempty]
      exact (keeps_pure _).ite (keeps_pure _)
    have hspaced := keeps_spaced hn hns hclasses hentered "\n"
    rw [show listed.2.values = s.values from hvalues] at hspaced
    exact hframe (hgap.append hspaced)

theorem kept_interface : (interface name methods bases annotations p).Kept target classes := by
  refine kept_unchanged (fun _ _ => rfl) rfl fun site values => ?_
  have hsignature (m : MethodShape) : Keeps target site values values (Render.signature target m)
      (Render.signature target m) :=
    keeps_get fun _ _ _ _ => (keeps_line _).append
      ((keeps_pure _).append ((keeps_line _).append (keeps_line _)).deeper)
  have hsignatures (ms : List MethodShape) : Keeps target site values values (Render.signatures target ms)
      (Render.signatures target ms) := by
    refine keeps_each (fun (m, i) => ?_) _
    exact (hsignature m).ite ((keeps_pure _).append (hsignature m))
  cases target with
  | cython => exact keeps_pure _
  | python =>
    refine (keeps_pure _).append (Keeps.append (Keeps.deeper ((keeps_line _).append ?_)) (keeps_pure _))
    match methods with
    | none | some [] => exact keeps_line _
    | some (m :: ms) => exact (keeps_pure _).append (hsignatures _)

/-! ### Parsed programs -/

def Role.Kept (target : Target) (classes : List String) : Role → Node → Prop
  | statement, n | member, n | top, n => n.Kept target classes
  | case, n => n.CaseKept target classes
  | annotationUse, n => n.AnnotationKept target
  | enumMember, n => n.MemberKept target
  | program, .module body => ∀ n ∈ body, n.Kept target classes
  | _, _ => True

end

/-- A final of the program has a spared name. -/
def Node.SparesFinals (target : Target) (classes : List String) (n : Node) : Prop :=
  n.Everywhere fun m => ∀ name ∈ m.finalName?, Spared target classes name

theorem Fits.kept (h : Fits W role n)
    (hall : n.Everywhere fun m => m.isSlice = false ∧ ∀ name ∈ m.finalName?, Spared target classes name) :
    role.Kept target classes n := by
  induction h with
  | pass => exact kept_unchanged (fun _ _ => rfl) rfl fun _ _ => keeps_line _
  | imports => exact kept_unchanged (fun _ _ => rfl) rfl fun _ _ => keeps_pure _
  | expressionStatement h =>
    have hagrees := h.agrees rfl nofun target
    refine kept_expression h.isPresent (fun _ _ hsound => hagrees.keeps hsound) ?_
    rintro name assigned operator type p rfl
    cases h with
    | assignment _ hassigned => exact hassigned.agrees rfl nofun target
  | declaration h =>
    cases h with
    | declared hplace hvalue =>
      refine kept_expression rfl (fun _ _ hsound => keeps_declared (hplace.agrees rfl nofun target)
        (hvalue.agrees rfl nofun target) hsound) ?_
      rintro name assigned operator type p ⟨⟩
      exact hvalue.agrees rfl nofun target
  | finalDecl hplace hvalue =>
    refine kept_finalDecl (hplace.agrees rfl nofun target) (hvalue.agrees rfl nofun target) hplace.writes hvalue.writes
      (hvalue.legible fun m hm hp => (hall.node 1 rfl m hm hp).1).1 ?_
    rintro name rfl
    exact (hall.here).2 name rfl
  | returns h => exact kept_returns (h.agrees rfl nofun target)
  | raises h => exact kept_raises (h.agrees rfl nofun target)
  | conditional hcondition _ _ _ ihthen ihelse =>
    exact kept_conditional (hcondition.agrees rfl nofun target) (fun n hn => ihthen n hn (hall.nodes 1 rfl n hn))
      fun n hn => ihelse n hn (hall.nodes 2 rfl n hn)
  | forLoop hclause _ _ ih =>
    refine kept_forLoop (hclause.agrees rfl nofun target) ?_ fun n hn => ih n hn (hall.nodes 1 rfl n hn)
    rintro operator item source rfl
    cases hclause with
    | binary _ hitem hsource => exact ⟨hitem.agrees rfl nofun target, hsource.agrees rfl nofun target⟩
  | whileLoop hcondition _ _ ih =>
    exact kept_whileLoop (hcondition.agrees rfl nofun target) fun n hn => ih n hn (hall.nodes 1 rfl n hn)
  | switch hsubject _ _ _ ihcases ihdefault =>
    exact kept_switch (hsubject.agrees rfl nofun target) (fun n hn => ihcases n hn (hall.nodes 1 rfl n hn))
      fun n hn => ihdefault n hn (hall.nodes 2 rfl n hn)
  | case hvalue _ _ ih => exact ⟨hvalue.agrees rfl nofun target, fun n hn => ih n hn (hall.nodes 1 rfl n hn)⟩
  | annotationUse _ hargs _ hvalues =>
    exact ⟨fun n hn => (hargs n hn).agrees rfl nofun target, fun n hn => (hvalues n hn).agrees rfl nofun target⟩
  | enumMember _ hargs => exact fun n hn => (hargs n hn).agrees rfl nofun target
  | plainMember _ ih | plainTop _ ih => exact ih hall
  | function _ _ _ _ _ _ _ ihbody ihannotations =>
    exact kept_function (fun n hn => ihannotations n hn (hall.nodes 10 rfl n hn))
      fun n hn => ihbody n hn (hall.nodes 2 rfl n hn)
  | classDecl _ _ _ _ _ _ ihbody => exact kept_classDecl fun n hn => ihbody n hn (hall.nodes 1 rfl n hn)
  | dataClass _ _ _ _ _ _ ihbody => exact kept_dataClass fun n hn => ihbody n hn (hall.nodes 2 rfl n hn)
  | enumDecl _ _ _ _ ihmembers ihbody =>
    exact kept_enumDecl (fun n hn => ihmembers n hn (hall.nodes 1 rfl n hn))
      fun n hn => ihbody n hn (hall.nodes 2 rfl n hn)
  | interface => exact kept_interface
  | module _ ih => exact fun n hn => ih n hn (hall.nodes 0 rfl n hn)
  | _ => trivial

/-- A parsed program and the program with its finals inlined are written alike. -/
theorem toSource_inlining (h : Fits W .program m) (hfree : m.SliceFree) (hs : m.SparesFinals target m.site.classes)
    (imports : List String) : m.inlining.toSource target imports = m.toSource target imports := by
  have hkept := h.kept fun n hn hp => ⟨hfree n hn hp, hs n hn hp⟩
  have hlegible := (h.legible hfree).1
  cases h with
  | @module body =>
    cases body with
    | nil => rfl
    | cons n ns =>
      let site := (module (n :: ns)).site
      have hsound : Sound target site [] := by
        intro scope hscope v hv
        cases mem_singleton.1 hscope
        cases hv
      obtain ⟨hn, hns⟩ := forall_mem_cons.1 hkept
      obtain ⟨text, htext, htext'⟩ := keeps_spaced (s := {}) hn hns rfl hsound "\n" (programContext (n :: ns)) rfl
      have hinlined : (module (n :: ns)).inlining =
          module ((n.inlined site {}).1 :: (inlinedAll site ns (n.inlined site {}).2).1) := rfl
      have hlegible' := (allKept (s := {}) hkept rfl hsound).legible hlegible
      obtain ⟨hneeds, hclasses, _⟩ := resemble_inlinedAll site (n :: ns) {}
      have hcontext : programContext (inlinedAll site (n :: ns) {}).1 = programContext (n :: ns) :=
        congrArg (fun names => ({ classNames := names } : Context)) hclasses
      rw [hinlined, toSource_module_cons target hlegible', toSource_module_cons target hlegible,
        show Needs.of (_ :: _) = Needs.of (n :: ns) from hneeds,
        show programContext (_ :: _) = programContext (n :: ns) from hcontext]
      exact congrArg (_ ++ ·) ((congrArg Prod.fst htext').trans (congrArg Prod.fst htext).symm)

end BraceLang
