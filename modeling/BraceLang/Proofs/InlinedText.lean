import BraceLang.Proofs.Appending
import BraceLang.Proofs.ExpressionText
import BraceLang.Proofs.Inlining

/-!
# The text of an inlined program

The text of a program and the text of the program with its finals inlined are made in contexts that differ in the
finals alone: in the one they are those of the scopes around (`scopeTexts`), in the other there are none.
-/

namespace BraceLang

open List Node Render

variable {target : Target} {scopes : List OwnedScope} {α β : Type} {p : Prop} {value? : String → Option Node}
  {W : TokenKind → String → Prop} {n : Node} {kind : ComprehensionKind} {r r' : Render α} {f : α → Render String}
  {f' : α → Render β}

/-! ### Contexts with and without finals -/

def Context.Bare (c : Context) : Prop := ∀ scope ∈ c.finals, scope = []

namespace Node

def plainText (target : Target) (n : Node) : String := (n.render target {}).1

def IsPlain (target : Target) (n : Node) : Prop :=
  ∀ c : Context, c.Bare → n.render target c = (n.plainText target, c)

end Node

def scopeTexts (target : Target) (scopes : List OwnedScope) : List FinalScope :=
  scopes.map fun s => s.values.map fun v => (v.1, v.2.plainText target)

theorem lookup_map_snd (f : α → β) (vs : List (String × α)) (name : String) :
    (vs.map fun v => (v.1, f v.2)).lookup name = (vs.lookup name).map f := by
  induction vs with
  | nil => rfl
  | cons v vs ih =>
    obtain ⟨key, a⟩ := v
    rw [map_cons, lookup_cons, lookup_cons, ih]
    cases name == key <;> rfl

theorem findSome?_scopeTexts (target : Target) (scopes : List OwnedScope) (name : String) :
    (scopeTexts target scopes).findSome? (·.lookup name) = (inForce? scopes name).map (plainText target) := by
  induction scopes with
  | nil => rfl
  | cons s scopes ih =>
    have hhead := lookup_map_snd (plainText target) s.values name
    unfold scopeTexts inForce? at *
    rw [map_cons, findSome?_cons, findSome?_cons, hhead]
    cases s.values.lookup name with
    | none => exact ih
    | some => rfl

theorem findSome?_bare {c : Context} (h : c.Bare) (name : String) : c.finals.findSome? (·.lookup name) = none := by
  rw [findSome?_eq_none_iff]
  intro scope hscope
  rw [h scope hscope]
  rfl

/-- The two give the same value and leave the context alone, the first wherever the finals of the scopes are in force,
the second wherever none is. -/
def Agree (target : Target) (scopes : List OwnedScope) {α : Type} (r r' : Render α) : Prop :=
  ∃ a, (∀ c : Context, c.finals = scopeTexts target scopes → r c = (a, c)) ∧ ∀ c : Context, c.Bare → r' c = (a, c)

section

variable {q q' : Render α} {f : α → Render β} [Decidable p]

theorem agree_pure (a : α) : Agree target scopes (pure a) (pure a) := ⟨a, fun _ _ => rfl, fun _ _ => rfl⟩

theorem Agree.bind (h : Agree target scopes r r') (hf : ∀ a, Agree target scopes (f a) (f' a)) :
    Agree target scopes (r >>= f) (r' >>= f') := by
  obtain ⟨a, hr, hr'⟩ := h
  obtain ⟨b, hb, hb'⟩ := hf a
  refine ⟨b, fun c hc => ?_, fun c hc => ?_⟩
  · show f (r c).1 (r c).2 = _
    rw [hr c hc]
    exact hb c hc
  · show f' (r' c).1 (r' c).2 = _
    rw [hr' c hc]
    exact hb' c hc

theorem Agree.ite (h : Agree target scopes r r') (h' : Agree target scopes q q') :
    Agree target scopes (if p then r else q) (if p then r' else q') := by
  split
  · exact h
  · exact h'

theorem Agree.optional {γ : Type} {g : γ → α} {r r' : Render γ} (h : Agree target scopes r r')
    (hf : ∀ a, Agree target scopes (f a) (f' a)) :
    Agree target scopes (if p then (do f (← pure (g (← r)))) else (do f (← pure a)))
      (if p then (do f' (← pure (g (← r')))) else (do f' (← pure a))) :=
  Agree.ite (h.bind fun _ => hf _) (hf a)

theorem Agree.append {r r' q q' : Render String} (h : Agree target scopes r r') (h' : Agree target scopes q q') :
    Agree target scopes (r ++ q) (r' ++ q') :=
  h.bind fun _ => h'.bind fun _ => agree_pure _

/-! ### Expressions -/

def PlainScopes (target : Target) (scopes : List OwnedScope) : Prop :=
  ∀ name value, inForce? scopes name = some value → value.IsPlain target

/-- Inlining does not change the text of the expression. -/
def Node.Agrees (target : Target) (n : Node) : Prop :=
  ∀ scopes, PlainScopes target scopes →
    Agree target scopes (n.render target) ((n.filled (inForce? scopes)).render target)

section

variable {ns : List Node}

theorem length_filledAll : (filledAll value? ns).length = ns.length := by
  induction ns with
  | nil => rfl
  | cons n ns ih => exact congrArg (· + 1) ih

theorem isEmpty_filledAll : (filledAll value? ns).isEmpty = ns.isEmpty := by cases ns <;> rfl

theorem isPresent_filled (n : Node) : (n.filled value?).isPresent = n.isPresent := by
  cases n with
  | identifier =>
    rw [filled]
    split <;> rfl
  | _ => rfl

theorem isSuper_filled (h : n.isSuper = false) : (n.filled value?).isSuper = false := by
  cases n with
  | identifier =>
    rw [filled]
    split
    · rfl
    · exact h
  | _ => rfl

theorem agree_following (separator : String)
    (h : ∀ n ∈ ns, Agree target scopes (n.render target) ((n.filled value?).render target)) :
    Agree target scopes (renderFollowing target separator ns)
      (renderFollowing target separator (filledAll value? ns)) := by
  induction ns with
  | nil => exact agree_pure _
  | cons n ns ih =>
    obtain ⟨hn, hns⟩ := forall_mem_cons.1 h
    exact (agree_pure _).append (hn.append (ih hns))

theorem agree_separated (h : ∀ n ∈ ns, Agree target scopes (n.render target) ((n.filled value?).render target)) :
    Agree target scopes (renderSeparated target ns) (renderSeparated target (filledAll value? ns)) := by
  cases ns with
  | nil => exact agree_pure _
  | cons =>
    obtain ⟨hn, hns⟩ := forall_mem_cons.1 h
    exact hn.append (agree_following _ hns)

theorem agree_list (h : ∀ n ∈ ns, Agree target scopes (n.render target) ((n.filled value?).render target)) :
    Agree target scopes (renderList target ns) (renderList target (filledAll value? ns)) := by
  induction ns with
  | nil => exact agree_pure _
  | cons n ns ih =>
    obtain ⟨hn, hns⟩ := forall_mem_cons.1 h
    exact hn.bind fun _ => (ih hns).bind fun _ => agree_pure _

end

theorem agrees_identifier (name : String) : (identifier name).Agrees target := by
  intro scopes hscopes
  have hforce (c : Context) (hc : c.finals = scopeTexts target scopes) : (identifier name).render target c =
      (((inForce? scopes name).map (plainText target)).getD name, c) := by
    show ((c.finals.findSome? (·.lookup name)).getD name, c) = _
    rw [hc, findSome?_scopeTexts]
  cases hvalue : inForce? scopes name with
  | none =>
    have hfilled : (identifier name).filled (inForce? scopes) = identifier name := by rw [filled, hvalue]
    rw [hfilled]
    refine ⟨name, fun c hc => ?_, fun c hc => ?_⟩
    · rw [hforce c hc, hvalue]
      rfl
    · show ((c.finals.findSome? (·.lookup name)).getD name, c) = _
      rw [findSome?_bare hc]
      rfl
  | some value =>
    have hfilled : (identifier name).filled (inForce? scopes) = argument none value := by rw [filled, hvalue]
    rw [hfilled]
    refine ⟨value.plainText target, fun c hc => ?_, fun c hc => ?_⟩
    · rw [hforce c hc, hvalue]
      rfl
    · exact hscopes name value hvalue c hc

theorem agrees_call (hcallee : callee.Agrees target)
    (harguments : ∀ n ∈ arguments, n.Agrees target) : (call callee arguments).Agrees target := by
  intro scopes hscopes
  have hlist (text : String) := (agree_list fun n hn => harguments n hn scopes hscopes).bind fun texts =>
    agree_pure (text ++ "(" ++ String.intercalate ", " texts ++ ")")
  cases hsuper : callee.isSuper with
  | true =>
    have hfilled : (call callee arguments).filled (inForce? scopes) =
        call callee (filledAll (inForce? scopes) arguments) := by rw [filled, if_pos hsuper]
    have htrue {r q : Render String} : (if callee.isSuper then r else q) = r := if_pos hsuper
    rw [hfilled]
    show Agree target scopes (if callee.isSuper then _ else _) (if callee.isSuper then _ else _)
    rw [htrue, htrue]
    exact (agree_pure _).bind hlist
  | false =>
    have hne : ¬callee.isSuper := by simp [hsuper]
    have hne' : ¬(callee.filled (inForce? scopes)).isSuper := by simp [isSuper_filled hsuper]
    have hfilled : (call callee arguments).filled (inForce? scopes) =
        call (callee.filled (inForce? scopes)) (filledAll (inForce? scopes) arguments) := by rw [filled, if_neg hne]
    rw [hfilled]
    show Agree target scopes (if callee.isSuper then _ else _)
      (if (callee.filled (inForce? scopes)).isSuper then _ else _)
    rw [if_neg hne, if_neg hne']
    exact (hcallee scopes hscopes).bind hlist

theorem agrees_sequence {kind : LiteralKind} {items : List Node} (hitems : ∀ n ∈ items, n.Agrees target)
    (hkind : kind ∈ [LiteralKind.list, .tuple, .set, .dict]) : (collection items kind).Agrees target := by
  intro scopes hscopes
  have hall := agree_separated fun n hn => hitems n hn scopes hscopes
  simp only [mem_cons, not_mem_nil, or_false] at hkind
  rcases hkind with rfl | rfl | rfl | rfl
  · exact (agree_pure _).append (hall.append (agree_pure _))
  · refine (agree_pure _).append (hall.append ?_)
    rw [length_filledAll]
    exact ((agree_pure _).ite (agree_pure _)).append (agree_pure _)
  · show Agree target scopes (if items.isEmpty then _ else _)
      (if (filledAll (inForce? scopes) items).isEmpty then _ else _)
    rw [isEmpty_filledAll]
    exact (agree_pure _).ite ((agree_pure _).append (hall.append (agree_pure _)))
  · exact (agree_pure _).append (hall.append (agree_pure _))

theorem agrees_comprehension (helement : element.Agrees target) (hplace : place.Agrees target)
    (hsource : source.Agrees target)
    (hcondition : condition.Agrees target) (hkey : key.Agrees target) :
    (comprehension element place source condition kind key).Agrees target := by
  intro scopes hscopes
  have hrest {g g' : String → Render String} (hg : ∀ t, Agree target scopes (g t) (g' t)) :
      Agree target scopes
        (if condition.isPresent then (do g (← pure (" if " ++ (← condition.render target)))) else (do g (← pure "")))
        (if (condition.filled (inForce? scopes)).isPresent then
          (do g' (← pure (" if " ++ (← (condition.filled (inForce? scopes)).render target))))
        else (do g' (← pure ""))) := by
    rw [isPresent_filled]
    exact Agree.optional (hcondition scopes hscopes) hg
  have hkeyed {g g' : String → Render String} (hg : ∀ t, Agree target scopes (g t) (g' t)) :
      Agree target scopes
        (if (kind = .dict && key.isPresent) then (do g (← pure ((← key.render target) ++ ": ")))
        else (do g (← pure "")))
        (if (kind = .dict && (key.filled (inForce? scopes)).isPresent) then
          (do g' (← pure ((← (key.filled (inForce? scopes)).render target) ++ ": ")))
        else (do g' (← pure ""))) := by
    rw [isPresent_filled]
    exact Agree.optional (hkey scopes hscopes) hg
  refine (helement scopes hscopes).bind fun _ => hkeyed fun _ => ?_
  refine (hplace scopes hscopes).bind fun _ => (hsource scopes hscopes).bind fun _ => hrest fun _ => ?_
  cases kind <;> exact agree_pure _

end

/-- Inlining does not change the text of a parsed expression. -/
theorem Fits.agrees (h : Fits W role n) (hrole : role.isExpression)
    (hdeclared : role ≠ .declared) (target : Target) : n.Agrees target := by
  induction h with
  | identifier => exact agrees_identifier _
  | truth | nothing | literal | slice | missing => exact fun _ _ => agree_pure _
  | sequence hk _ ih =>
    refine agrees_sequence (fun n hn => ih n hn rfl nofun) ?_
    rcases hk with rfl | rfl | rfl <;> decide
  | dictionary _ ih => exact agrees_sequence (fun n hn => ih n hn rfl nofun) (by decide)
  | entry _ _ ih ih' | subscript _ _ ih ih' | binary _ _ _ ih ih' | logical _ _ _ ih ih' | assignment _ _ _ ih ih' =>
    exact fun scopes hs => (ih rfl nofun scopes hs).bind fun _ =>
      (ih' rfl nofun scopes hs).bind fun _ => agree_pure _
  | member _ _ ih | namedArgument _ _ ih | unary _ _ ih =>
    exact fun scopes hs => (ih rfl nofun scopes hs).bind fun _ => agree_pure _
  | call _ _ ihcallee ihargs => exact agrees_call (ihcallee rfl nofun) fun n hn => ihargs n hn rfl nofun
  | plainArgument _ ih | plainIndex _ ih | present _ ih => exact ih rfl nofun
  | comprehension _ _ _ _ _ _ ihelement ihplace ihsource ihcondition ihkey =>
    exact agrees_comprehension (ihelement rfl nofun) (ihplace rfl nofun) (ihsource rfl nofun) (ihcondition rfl nofun)
      (ihkey rfl nofun)
  | declared => exact absurd rfl hdeclared
  | _ => cases hrole

theorem Node.Agrees.isPlain (h : n.Agrees target) (hscopes : PlainScopes target scopes) :
    (n.filled (inForce? scopes)).IsPlain target ∧ ∀ c : Context, c.finals = scopeTexts target scopes →
      n.render target c = ((n.filled (inForce? scopes)).plainText target, c) := by
  obtain ⟨a, hn, hfilled⟩ := h scopes hscopes
  have hempty : Context.Bare {} := by
    intro scope hscope
    exact mem_singleton.1 hscope
  have htext : (n.filled (inForce? scopes)).plainText target = a := congrArg Prod.fst (hfilled {} hempty)
  rw [IsPlain, htext]
  exact ⟨hfilled, hn⟩

/-! ### Legible values -/

def LegibleValues (value? : String → Option Node) : Prop :=
  ∀ name value, value? name = some value → value.writes ∧ value.Legible

theorem writes_filled (h : n.writes) : (n.filled value?).writes := by
  cases n with
  | identifier =>
    rw [filled]
    split <;> rfl
  | comprehension _ _ _ _ kind => cases kind <;> exact h
  | _ => exact h

mutual

theorem legible_filled (hvalues : LegibleValues value?) :
    ∀ n : Node, n.Legible → (n.filled value?).Legible
  | identifier name, h => by
    rw [filled]
    split
    · next value hvalue => exact hvalues name value hvalue
    · exact h
  | member object _, h | argument _ object, h => ⟨writes_filled h.1, legible_filled hvalues object h.2⟩
  | collection items _, h => allLegible_filled hvalues items h
  | call callee arguments, h => by
    have harguments := allWritten_filled hvalues arguments h.2.2
    rw [filled]
    split
    · exact ⟨h.1, h.2.1, harguments⟩
    · exact ⟨writes_filled h.1, legible_filled hvalues callee h.2.1, harguments⟩
  | logical _ left right, h | binary _ left right, h | assignment left right _ _ _, h =>
    ⟨legible_filled hvalues left h.1, legible_filled hvalues right h.2⟩
  | unary _ operand, h => legible_filled hvalues operand h
  | entry key value, h | subscript key value, h =>
    ⟨⟨writes_filled h.1.1, legible_filled hvalues key h.1.2⟩, writes_filled h.2.1, legible_filled hvalues value h.2.2⟩
  | comprehension element place source condition _ key, h =>
    ⟨legible_filled hvalues element h.1, legible_filled hvalues place h.2.1, legible_filled hvalues source h.2.2.1,
      legible_filled hvalues condition h.2.2.2.1, legible_filled hvalues key h.2.2.2.2⟩
  | missing, h | module _, h | annotationUse .., h | rawCode .., h | interface .., h | .signature .., h
  | parameter .., h | typeParameter .., h | classDecl .., h | function .., h | .block _, h | expression .., h
  | .pass _, h | returns .., h | conditional .., h | forLoop .., h | whileLoop .., h | switch .., h | case .., h
  | literal .., h | lambda .., h | raises .., h | imports _, h | slice .., h | finalDecl .., h | dataClass .., h
  | enumMember .., h | enumDecl .., h => h

theorem allLegible_filled (hvalues : LegibleValues value?) :
    ∀ ns : List Node, AllLegible ns → AllLegible (filledAll value? ns)
  | [], _ => trivial
  | n :: ns, h => ⟨legible_filled hvalues n h.1, allLegible_filled hvalues ns h.2⟩

theorem allWritten_filled (hvalues : LegibleValues value?) :
    ∀ ns : List Node, AllWritten ns → AllWritten (filledAll value? ns)
  | [], _ => trivial
  | n :: ns, h => ⟨⟨writes_filled h.1.1, legible_filled hvalues n h.1.2⟩, allWritten_filled hvalues ns h.2⟩

end

theorem Fits.writes (h : Fits W .expression n) : n.writes := by
  cases h with
  | @comprehension kind _ _ _ _ _ hkind =>
    simp only [mem_cons, not_mem_nil, or_false] at hkind
    rcases hkind with rfl | rfl | rfl | rfl <;> rfl
  | _ => rfl

/-! ### Contexts of statements -/

namespace Site

def context (site : Site) (target : Target) (values : ValueScope) (c : Context) : Context :=
  { c with finals := scopeTexts target (site.scopes values) }

def bareContext (site : Site) (c : Context) : Context := { c with finals := [] :: site.outer.map fun _ => [] }

theorem bare_bareContext (site : Site) (c : Context) : (site.bareContext c).Bare := by
  intro scope hscope
  rcases mem_cons.1 hscope with rfl | hscope
  · rfl
  · obtain ⟨_, _, rfl⟩ := mem_map.1 hscope
    rfl

end Site

/-- The two give the same value, the first where the finals of the scopes are in force, the second where none is.  The
first changes the finals of the innermost scope from `values` to `values'`, the second changes nothing. -/
def Keeps (target : Target) (site : Site) (values values' : ValueScope) {α : Type} (r r' : Render α) : Prop :=
  ∀ c : Context, c.classNames = site.classes → ∃ a,
    r (site.context target values c) = (a, site.context target values' c) ∧
    r' (site.bareContext c) = (a, site.bareContext c)

section

variable {site : Site} {values values₁ values₂ : ValueScope}

theorem Agree.keeps (h : Agree target (site.scopes values) r r') : Keeps target site values values r r' := by
  obtain ⟨a, hr, hr'⟩ := h
  exact fun c _ => ⟨a, hr _ rfl, hr' _ (site.bare_bareContext c)⟩

theorem keeps_pure (a : α) : Keeps target site values values (pure a) (pure a) := fun _ _ => ⟨a, rfl, rfl⟩

theorem Keeps.bind {f : α → Render β} (h : Keeps target site values values₁ r r')
    (hf : ∀ a, Keeps target site values₁ values₂ (f a) (f' a)) :
    Keeps target site values values₂ (r >>= f) (r' >>= f') := by
  intro c hc
  obtain ⟨a, hr, hr'⟩ := h c hc
  obtain ⟨b, hb, hb'⟩ := hf a c hc
  refine ⟨b, ?_, ?_⟩
  · show f (r _).1 (r _).2 = _
    rw [hr]
    exact hb
  · show f' (r' _).1 (r' _).2 = _
    rw [hr']
    exact hb'

theorem keeps_get {f f' : Context → Render α}
    (h : ∀ (c : Context) (finals finals' : List FinalScope), c.classNames = site.classes →
      Keeps target site values values₁ (f { c with finals := finals }) (f' { c with finals := finals' })) :
    Keeps target site values values₁ (get >>= f) (get >>= f') :=
  fun c hc => h c _ _ hc c hc

theorem Keeps.ite [Decidable p] {q q' : Render α} (h : Keeps target site values values₁ r r')
    (h' : Keeps target site values values₁ q q') :
    Keeps target site values values₁ (if p then r else q) (if p then r' else q') := by
  split
  · exact h
  · exact h'

variable {r r' q q' : Render String}

theorem Keeps.append (h : Keeps target site values values₁ r r') (h' : Keeps target site values₁ values₂ q q') :
    Keeps target site values values₂ (r ++ q) (r' ++ q') :=
  h.bind fun _ => h'.bind fun _ => keeps_pure _

theorem keeps_line (t : String) : Keeps target site values values (line t) (line t) :=
  keeps_get fun _ _ _ _ => keeps_pure _

theorem Keeps.deeper (h : Keeps target site values values₁ r r') :
    Keeps target site values values₁ (deeper r) (deeper r') := by
  intro c hc
  let inner : Context := { c with depth := c.depth + 1 }
  obtain ⟨a, hr, hr'⟩ := h inner hc
  refine ⟨a, ?_, ?_⟩
  · show Render.deeper (fun _ => r (site.context target values inner)) (site.context target values c) = _
    rw [hr]
    rfl
  · show Render.deeper (fun _ => r' (site.bareContext inner)) (site.bareContext c) = _
    rw [hr']
    rfl

theorem Keeps.block (h : Keeps target site values values₁ r r') (head : String) :
    Keeps target site values values₁ (Render.block head r) (Render.block head r') :=
  (keeps_line head).append h.deeper

theorem keeps_each (h : ∀ a, Keeps target site values values (f a) (f a)) (as : List α) :
    Keeps target site values values (each f as) (each f as) := by
  induction as with
  | nil => exact keeps_pure _
  | cons a as ih => exact (h a).append ih

theorem Keeps.withFinals (h : Keeps target (site.within values owner) [] values₁ r r') :
    Keeps target site values values (withFinals r) (withFinals r') := by
  intro c hc
  obtain ⟨a, hr, hr'⟩ := h c hc
  refine ⟨a, ?_, ?_⟩
  · show Render.withFinals (fun _ => r ((site.within values owner).context target [] c))
      (site.context target values c) = _
    rw [hr]
    rfl
  · show Render.withFinals (fun _ => r' ((site.within values owner).bareContext c)) (site.bareContext c) = _
    rw [hr']
    rfl

theorem Keeps.withinClass (h : Keeps target site values values₁ r r') (name : String) (params : Option (List String)) :
    Keeps target site values values₁ (withinClass name params r) (withinClass name params r') := by
  intro c hc
  let inner : Context :=
    { c with inClass := true, classStack := name :: c.classStack, typeParams := params.getD c.typeParams }
  obtain ⟨a, hr, hr'⟩ := h inner hc
  refine ⟨a, ?_, ?_⟩
  · show Render.withinClass name params (fun _ => r (site.context target values inner))
      (site.context target values c) = _
    rw [hr]
    rfl
  · show Render.withinClass name params (fun _ => r' (site.bareContext inner)) (site.bareContext c) = _
    rw [hr']
    rfl

/-- A final is noted with the text of the value that is inlined; without a name it is not noted. -/
theorem keeps_setFinal (name : String) (value : Node) :
    Keeps target site values (if name.isEmpty then values else (name, value) :: values)
      (setFinal name (value.plainText target)) (pure "") := by
  intro c hc
  refine ⟨"", ?_, rfl⟩
  unfold setFinal
  cases name.isEmpty <;> rfl

end

end BraceLang
