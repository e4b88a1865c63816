import BraceLang.Proofs.AlikeTables
import BraceLang.Proofs.CallReports
import BraceLang.Proofs.ProgramText
import Mathlib.Data.List.Infix

/-!
# One function and the findings on another

`Node.emptiedAt` replaces the body of the function at a spot by a single `pass`.
-/

namespace List

variable {β : Type} {g : α → α}

variable {l : List α} {known : List String} {i j : Nat}

theorem map_modify_eq {f : α → β} (h : ∀ x, l[i]? = some x → f (g x) = f x) : (l.modify i g).map f = l.map f := by
  refine ext_getElem? fun j => ?_
  rw [getElem?_map, getElem?_map, getElem?_modify]
  cases hj : l[j]? with
  | none => rfl
  | some x =>
    by_cases hij : i = j
    · subst hij
      simp [h x hj]
    · simp [hij]

theorem flatMap_modify_eq {f : α → List β} (h : ∀ x, l[i]? = some x → f (g x) = f x) :
    (l.modify i g).flatMap f = l.flatMap f := by
  rw [flatMap_def, flatMap_def, map_modify_eq h]

theorem findSome?_congr_of_mem {f g : α → Option β} (h : ∀ x ∈ l, f x = g x) : l.findSome? f = l.findSome? g := by
  induction l with
  | nil => rfl
  | cons x l ih => rw [findSome?_cons, findSome?_cons, h x (.head l), ih fun y hy => h y (.tail x hy)]

theorem forall_mem_modify {P : α → Prop} (h : ∀ x ∈ l, P x) (hg : ∀ x, P x → P (g x)) (i : Nat) :
    ∀ x ∈ l.modify i g, P x := by
  intro x hx
  obtain ⟨j, hj⟩ := mem_iff_getElem?.mp hx
  rw [getElem?_modify, Option.map_eq_map, Option.map_eq_some_iff] at hj
  obtain ⟨y, hy, rfl⟩ := hj
  have hP := h y (mem_of_getElem? hy)
  split
  · exact hg y hP
  · exact hP

theorem forall₂_modify (hrefl : ∀ x, R x x) (h : ∀ x, l[i]? = some x → R x (g x)) : Forall₂ R l (l.modify i g) := by
  induction l generalizing i with
  | nil => cases i <;> exact .nil
  | cons x l ih =>
    cases i with
    | zero => exact .cons (h x rfl) (forall₂_same.2 fun y _ => hrefl y)
    | succ => exact .cons (hrefl x) (ih fun y hy => h y hy)

theorem zipIdx_modify (g : α → α) (l : List α) (i : Nat) :
    (l.modify i g).zipIdx = l.zipIdx.map fun x => (if i = x.2 then g x.1 else x.1, x.2) := by
  refine ext_getElem? fun j => ?_
  rw [getElem?_zipIdx, getElem?_modify, getElem?_map, getElem?_zipIdx]
  cases l[j]? with
  | none => rfl
  | some => simp

end List

namespace BraceLang

open List SymbolTable Declaration

variable {α : Type} {g f : Block} {shown : String → Bool} {p q : Spot} {m n u : Node} {W : TokenKind → String → Prop}
  {scope : String} {os : List (String × String)} {R : α → α → Prop}

/-- A place of a function in a program: its statement, and which unit of the statement it is. -/
abbrev Spot := Nat × Nat

namespace Node

/-- What a statement of a program consists of: the members of a class, data class or enumeration, and otherwise only the
statement itself. -/
def units (n : Node) : List Node := if n.typeName?.isSome then n.members else [n]

/-- The scope in which the units of a statement are checked. -/
def unitScope : Node → String
  | classDecl h .. => h.name
  | _ => "global"

def emptied : Node → Node
  | function h params (some _) typeParams annotations => function h params (some [pass true]) typeParams annotations
  | n => n

def emptiedIn (j : Nat) (n : Node) : Node :=
  if n.typeName?.isSome then n.withBody (n.members.modify j emptied) else if j = 0 then n.emptied else n

def emptiedAt (m : Node) (p : Spot) : Node := module (m.statements.modify p.1 (emptiedIn p.2))

/-- The function at a spot, with its scope and the classes that are known there. -/
def routineAt? (m : Node) (p : Spot) : Option Block :=
  m.items[p.1]?.bind fun i => i.2.units[p.2]?.bind fun n => (n.blocksIn i.2.typeName? i.1).head?

/-- The expressions of a statement that the check of types goes through, the statement being the `i`-th one. -/
def visitsIn (i : Nat) (n : Node) : List (Visit Spot) :=
  n.units.zipIdx.flatMap fun u => (u.1.checkedIn n.unitScope).map fun e => ⟨(i, u.2), e.1, e.2⟩

def visits (m : Node) : List (Visit Spot) := m.statements.zipIdx.flatMap fun s => s.1.visitsIn s.2

/-- The findings on types in a program, each with the spot of its statement. -/
def typeReports (m : Node) (b : NameMap Bindings) : List (Spot × Finding) := m.symbols.reports b m.visits

/-! ### Emptied statements -/

theorem view_emptiedIn {view : Node → α} (hemptied : ∀ n, view n.emptied = view n)
    (hbody : ∀ n body, n.typeName?.isSome → view (n.withBody body) = view n) (j : Nat) (n : Node) :
    view (n.emptiedIn j) = view n := by
  unfold emptiedIn
  split
  · next hname => exact hbody n _ hname
  · split
    · exact hemptied n
    · rfl

theorem typeName?_emptied (n : Node) : n.emptied.typeName? = n.typeName? := by
  unfold emptied
  split <;> rfl

theorem typeName?_emptiedIn (j : Nat) (n : Node) : (n.emptiedIn j).typeName? = n.typeName? := by
  refine view_emptiedIn typeName?_emptied (fun n body hname => ?_) j n
  cases n with
  | classDecl | dataClass | enumDecl => rfl
  | _ => cases hname

theorem fieldNodes_emptiedIn (j : Nat) (n : Node) : (n.emptiedIn j).fieldNodes = n.fieldNodes := by
  refine view_emptiedIn (fun n => ?_) (fun n body hname => ?_) j n
  · unfold emptied
    split <;> rfl
  · cases n with
    | classDecl | dataClass | enumDecl => rfl
    | _ => cases hname

theorem unitScope_emptiedIn (j : Nat) (n : Node) : (n.emptiedIn j).unitScope = n.unitScope := by
  refine view_emptiedIn (fun n => ?_) (fun n body hname => ?_) j n
  · unfold emptied
    split <;> rfl
  · cases n with
    | classDecl | dataClass | enumDecl => rfl
    | _ => cases hname

theorem units_emptiedIn (j : Nat) (n : Node) : (n.emptiedIn j).units = n.units.modify j emptied := by
  rw [units, typeName?_emptiedIn, units]
  split
  · next hname =>
    cases n with
    | classDecl | dataClass | enumDecl => rfl
    | _ => cases hname
  · next hname =>
    rw [emptiedIn, if_neg hname]
    cases j with
    | zero => rfl
    | succ => simp

theorem withKnown_modify {f : Node → Node} (hf : ∀ n, (f n).typeName? = n.typeName?) (known : List String)
    (ns : List Node) (i : Nat) :
    withKnown known (ns.modify i f) = (withKnown known ns).modify i fun x => (x.1, f x.2) := by
  induction ns generalizing known i with
  | nil => cases i <;> rfl
  | cons n ns ih =>
    cases i with
    | zero =>
      change withKnown known (f n :: ns) = _
      rw [withKnown, hf]
      rfl
    | succ i =>
      change withKnown known (n :: ns.modify i f) = _
      rw [withKnown, ih]
      rfl

theorem items_emptiedAt (m : Node) (p : Spot) :
    (m.emptiedAt p).items = m.items.modify p.1 fun i => (i.1, i.2.emptiedIn p.2) :=
  withKnown_modify (typeName?_emptiedIn p.2) [] m.statements p.1

theorem map_snd_items (m : Node) : m.items.map Prod.snd = m.statements := by
  have hknown (known : List String) (ns : List Node) : (withKnown known ns).map Prod.snd = ns := by
    induction ns generalizing known with
    | nil => rfl
    | cons n ns ih => rw [withKnown, map_cons, ih]
  exact hknown [] m.statements

theorem exists_of_routineAt? (h : m.routineAt? p = some f) :
    ∃ known n head params body typeParams annotations,
      m.items[p.1]? = some (known, n) ∧ n.units[p.2]? = some (function head params body typeParams annotations) ∧
      f = ⟨routineScope n.typeName? head.name, n.typeName?.getD "global", known,
        function head params body typeParams annotations⟩ := by
  obtain ⟨⟨known, n⟩, hi, h⟩ := Option.bind_eq_some_iff.mp h
  obtain ⟨u, hu, h⟩ := Option.bind_eq_some_iff.mp h
  cases u with
  | function head params body typeParams annotations =>
    cases h
    exact ⟨known, n, head, params, body, typeParams, annotations, hi, hu, rfl⟩
  | _ => cases h

theorem routineAt?_emptiedAt (h : p ≠ q) (m : Node) : (m.emptiedAt p).routineAt? q = m.routineAt? q := by
  rw [routineAt?, routineAt?, items_emptiedAt, getElem?_modify]
  cases m.items[q.1]? with
  | none => rfl
  | some =>
    by_cases hi : p.1 = q.1
    · have hj : p.2 ≠ q.2 := fun hj => h (Prod.ext hi hj)
      simp only [Option.map_eq_map, Option.map_some, Option.bind_some, if_pos hi, typeName?_emptiedIn, units_emptiedIn,
        getElem?_modify, if_neg hj, Option.map_id']
    · simp only [Option.map_eq_map, Option.map_some, if_neg hi]

/-! ### The expressions that are left -/

theorem checkedIn_eq_units (n : Node) : n.checkedIn "global" = n.units.flatMap (checkedIn n.unitScope) := by
  cases n with
  | classDecl | dataClass | enumDecl => exact allCheckedIn_eq _ _
  | _ => exact (append_nil _).symm

theorem map_visits (m : Node) :
    m.visits.map (fun v => (v.scope, v.expression)) = allCheckedIn "global" m.statements := by
  have hunits (i : Nat) (n : Node) : (n.visitsIn i).map (fun v => (v.scope, v.expression)) = n.checkedIn "global" := by
    rw [visitsIn, map_flatMap, checkedIn_eq_units]
    simp only [map_map, Function.comp_def, map_id']
    rw [← flatMap_map Prod.fst, zipIdx_map_fst]
  rw [visits, map_flatMap, allCheckedIn_eq]
  simp only [hunits]
  rw [← flatMap_map Prod.fst, zipIdx_map_fst]

theorem map_snd_typeReports (body : List Node) (b : NameMap Bindings) :
    ((module body).typeReports b).map Prod.snd = ((module body).symbols.checkTypes (module body) b).findings := by
  have h := map_snd_reports (module body).symbols b [] (module body).visits
  rw [nil_append] at h
  rw [typeReports, ← h, map_visits, checkTypes, checkNodes_eq]
  rfl

theorem checkedIn_emptied (h : n.isFunction) (scope : String) : n.emptied.checkedIn scope = [] := by
  cases n with
  | function _ _ body => cases body <;> rfl
  | _ => cases h

theorem place_of_mem_visitsIn (h : v ∈ n.visitsIn i) : v.place.1 = i := by
  obtain ⟨u, -, hv⟩ := mem_flatMap.mp h
  obtain ⟨e, -, rfl⟩ := mem_map.mp hv
  rfl

theorem visitsIn_emptiedIn (h : ∀ u, n.units[j]? = some u → u.isFunction) (i : Nat) :
    (n.emptiedIn j).visitsIn i = (n.visitsIn i).filter fun v => decide (v.place ≠ (i, j)) := by
  rw [visitsIn, visitsIn, units_emptiedIn, unitScope_emptiedIn, zipIdx_modify, flatMap_map,
    filter_flatMap]
  refine flatMap_congr fun u hu => ?_
  have hget := mem_zipIdx_iff_getElem?.mp hu
  rw [filter_map]
  by_cases hj : j = u.2
  · subst hj
    simp [checkedIn_emptied (h _ hget), Function.comp_def]
  · have hne : u.2 ≠ j := fun he => hj he.symm
    simp [hj, hne, Function.comp_def]

theorem visits_emptiedAt (h : m.routineAt? p = some f) :
    (m.emptiedAt p).visits = m.visits.filter fun v => decide (v.place ≠ p) := by
  obtain ⟨known, n, _, _, _, _, _, hi, hu, -⟩ := exists_of_routineAt? h
  have hn : m.statements[p.1]? = some n := by
    rw [← map_snd_items, getElem?_map, hi]
    rfl
  change ((m.statements.modify p.1 (emptiedIn p.2)).zipIdx.flatMap fun s => s.1.visitsIn s.2) = _
  rw [visits, zipIdx_modify, flatMap_map, filter_flatMap]
  refine flatMap_congr fun s hs => ?_
  have hget := mem_zipIdx_iff_getElem?.mp hs
  by_cases hp : p.1 = s.2
  · rw [← hp, hn] at hget
    cases hget
    rw [if_pos hp, ← hp]
    exact visitsIn_emptiedIn (fun u hu' => by cases hu.symm.trans hu'; rfl) p.1
  · rw [if_neg hp, eq_comm, filter_eq_self]
    intro v hv
    have hplace : v.place ≠ p := fun he => hp (he ▸ place_of_mem_visitsIn hv)
    simpa using hplace

/-! ### What the table still says -/

theorem topDeclarations_eq (known : List String) (n : Node) : n.topDeclarations known =
    n.typeName?.elim [] (fun cls => allIn cls (parameters n.fieldNodes)) ++
      n.units.flatMap (declarationsIn n.typeName? known) := by
  rw [topDeclarations, units]
  cases n.typeName? with
  | none => exact (append_nil _).symm
  | some => rfl

theorem map_opening_topBlocks (known : List String) (n : Node) : (n.topBlocks known).map Block.opening =
    n.typeName?.toList.map (fun cls => (cls, "global")) ++
      n.units.flatMap fun u => (u.blocksIn n.typeName? known).map Block.opening := by
  rw [topBlocks, units]
  cases n.typeName? with
  | none => exact (append_nil _).symm
  | some => exact congrArg _ map_flatMap

theorem openings_emptiedAt (m : Node) (p : Spot) : (m.emptiedAt p).openings = m.openings := by
  have hunit (owner : Option String) (known : List String) (u : Node) :
      (u.emptied.blocksIn owner known).map Block.opening = (u.blocksIn owner known).map Block.opening := by
    unfold emptied
    split <;> rfl
  have hstatement (known : List String) (n : Node) :
      ((n.emptiedIn p.2).topBlocks known).map Block.opening = (n.topBlocks known).map Block.opening := by
    rw [map_opening_topBlocks, map_opening_topBlocks, typeName?_emptiedIn, units_emptiedIn,
      flatMap_modify_eq fun u _ => hunit n.typeName? known u]
  rw [openings, openings, blocks, blocks, items_emptiedAt, map_flatMap, map_flatMap]
  exact flatMap_modify_eq fun i _ => hstatement i.1 i.2

theorem filter_declarations_emptiedAt (h : m.routineAt? p = some f) (hscope : f.scope ≠ scope) :
    (m.emptiedAt p).declarations.filter (fun d => decide (d.scope = scope)) =
      m.declarations.filter fun d => decide (d.scope = scope) := by
  obtain ⟨known, n, head, params, body, typeParams, annotations, hi, hu, rfl⟩ := exists_of_routineAt? h
  have hnone (ds : List (String × Option String)) :
      (allIn (routineScope n.typeName? head.name) ds).filter (fun d => decide (d.scope = scope)) = [] := by
    rw [filter_eq_nil_iff]
    intro d hd
    simpa [(mem_allIn.mp hd).1] using hscope
  rw [declarations, declarations, items_emptiedAt, filter_flatMap, filter_flatMap]
  refine flatMap_modify_eq fun i hi' => ?_
  cases hi.symm.trans hi'
  rw [topDeclarations_eq, topDeclarations_eq, typeName?_emptiedIn, fieldNodes_emptiedIn, units_emptiedIn,
    filter_append, filter_append, filter_flatMap, filter_flatMap]
  refine congrArg _ (flatMap_modify_eq fun u hu' => ?_)
  cases hu.symm.trans hu'
  cases body with
  | none => rfl
  | some => exact (hnone _).trans (hnone _).symm

end Node

open Node

theorem Declaration.last?_congr (h : ds.filter (fun d => decide (d.scope = scope)) =
      ds'.filter fun d => decide (d.scope = scope)) (name : String) :
    last? ds scope name = last? ds' scope name := by
  have heq (ds : List Declaration) : last? ds scope name =
      ((ds.filter fun d => decide (d.scope = scope)).reverse.find? fun d => decide (d.name = name)).map (·.type) := by
    rw [last?, ← filter_reverse, find?_filter]
    simp only [decide_eq_true_eq]
  rw [heq, heq, h]

theorem mem_of_get?_chains
    (h : NameMap.get? (chains os) scope = some c) (hs : s ∈ c) : s = scope ∨ s = "global" ∨ s ∈ os.map Prod.snd := by
  induction os using reverseRecOn generalizing scope c with
  | nil =>
    rw [chains, foldl_nil, NameMap.get?, lookup_cons] at h
    split at h
    · cases h
      exact .inr (.inl (mem_singleton.mp hs))
    · cases h
  | append_singleton os o ih =>
    rw [chains_append_singleton, NameMap.get?_putNew, Option.or_eq_some_iff] at h
    rw [map_append, mem_append]
    rcases h with h | ⟨-, h⟩
    · rcases ih h hs with hs | hs | hs
      · exact .inl hs
      · exact .inr (.inl hs)
      · exact .inr (.inr (.inl hs))
    · split at h
      · next hscope =>
        cases h
        rcases mem_cons.mp hs with hs | hs
        · exact .inl (hs.trans hscope.symm)
        · cases houter : NameMap.get? (chains os) o.2 with
          | none =>
            rw [houter] at hs
            cases hs
          | some =>
            rw [houter] at hs
            rcases ih houter hs with hs | hs | hs
            · exact .inr (.inr (.inr (mem_singleton.mpr hs)))
            · exact .inr (.inl hs)
            · exact .inr (.inr (.inl hs))
      · cases h

theorem Node.parent_mem_openings (h : parent ∈ m.openings.map Prod.snd) : parent = "global" ∨ parent ∈ m.typeNames := by
  obtain ⟨o, ho, rfl⟩ := mem_map.mp h
  obtain ⟨b, hb, rfl⟩ := mem_map.mp ho
  obtain ⟨i, hi, hb⟩ := mem_flatMap.mp hb
  have ho : b.opening ∈ (i.2.topBlocks i.1).map Block.opening := mem_map_of_mem hb
  rw [map_opening_topBlocks, mem_append] at ho
  rcases ho with ho | ho
  · obtain ⟨cls, -, ho⟩ := mem_map.mp ho
    exact .inl (congrArg Prod.snd ho).symm
  · obtain ⟨u, -, ho⟩ := mem_flatMap.mp ho
    obtain ⟨b', hb', ho⟩ := mem_map.mp ho
    cases u with
    | function =>
      cases mem_singleton.mp hb'
      rw [← ho]
      cases hname : i.2.typeName? with
      | none => exact .inl rfl
      | some =>
        have hstatement : i.2 ∈ m.statements := map_snd_items m ▸ mem_map_of_mem hi
        exact .inr (mem_filterMap.mpr ⟨i.2, hstatement, hname⟩)
    | _ => cases hb'

section

theorem Fits.emptied (h : Fits W .member n) : Fits W .member n.emptied := by
  cases h with
  | function hname hresult hdecorators hparams hbody hannotations =>
    exact .function hname hresult hdecorators hparams (forall_mem_singleton.mpr (.pass true)) hannotations
  | plainMember h =>
    rw [show n.emptied = n by cases h <;> rfl]
    exact .plainMember h

theorem Fits.emptiedIn (h : Fits W .top n) (j : Nat) : Fits W .top (n.emptiedIn j) := by
  have hmembers {body : List Node} (hbody : ∀ n ∈ body, Fits W .member n) :
      ∀ n ∈ body.modify j Node.emptied, Fits W .member n :=
    forall_mem_modify hbody (fun _ h => h.emptied) j
  cases h with
  | plainTop h =>
    have hname := h.typeName?_eq_none
    rw [Node.emptiedIn, hname, if_neg (by simp)]
    split
    · exact .plainTop h.emptied
    · exact .plainTop h
  | classDecl hname hbases hinterfaces hbody hparams hannotations =>
    exact .classDecl hname hbases hinterfaces (hmembers hbody) hparams hannotations
  | dataClass hname hfields hbody hparams hannotations =>
    exact .dataClass hname hfields (hmembers hbody) hparams hannotations
  | enumDecl hname hms hbody hannotations => exact .enumDecl hname hms (hmembers hbody) hannotations
  | interface hname hmethods hbases hannotations =>
    rw [Node.emptiedIn, if_neg (by simp [typeName?])]
    split <;> exact .interface hname hmethods hbases hannotations

theorem Fits.emptiedAt (h : Fits W .program m) (p : Spot) : Fits W .program (m.emptiedAt p) := by
  cases h with
  | module hbody => exact .module (forall_mem_modify hbody (fun _ h => h.emptiedIn p.2) p.1)

theorem classOutline_emptiedIn (h : n.typeName? = some cls) (j : Nat) :
    (n.emptiedIn j).classOutline = n.classOutline := by
  have hroutines (body : List Node) : (body.modify j Node.emptied).map routine? = body.map routine? := by
    refine map_modify_eq fun u _ => ?_
    unfold Node.emptied
    split <;> rfl
  have houtline {d d' : Node} (hlinks : classLinks d = classLinks d')
      (hparams : d.classTypeParameters = d'.classTypeParameters)
      (hbody : (d.body?.getD []).map routine? = (d'.body?.getD []).map routine?)
      (names : List String) {methods methods' : NameMap (List FunctionSymbol)} (hmethods : methods = methods') :
      ClassSymbol.outline ⟨d, "global", names, methods⟩ = ClassSymbol.outline ⟨d', "global", names, methods'⟩ := by
    simp only [ClassSymbol.outline, hlinks, hparams, hmethods, funext (constructorParameters?_congr hbody)]
  cases n with
  | classDecl _ body | dataClass _ _ body | enumDecl _ _ body =>
    apply houtline
    · rfl
    · rfl
    · exact hroutines body
    · exact methodsOf_congr (hroutines body) _
  | _ => cases h

theorem interchangeable_emptied (h : Hidden shown known (u.body?.getD [])) :
    Interchangeable shown known u u.emptied := by
  unfold Node.emptied
  split
  · exact .routine rfl rfl h fun x hx => by cases hx
  · exact .same u

theorem topInterchangeable_emptiedIn (h : ∀ u, n.units[j]? = some u → Hidden shown known (u.body?.getD [])) :
    TopInterchangeable shown known n (n.emptiedIn j) := by
  cases hname : n.typeName? with
  | none =>
    have hunits : n.units = [n] := by simp [units, hname]
    rw [Node.emptiedIn, hname, if_neg (by simp)]
    split
    · next hj => exact .routine (interchangeable_emptied (h n (by rw [hunits, hj]; rfl)))
    · exact .same n
  | some cls =>
    have hunits (n : Node) (hname : n.typeName? = some cls) : n.units = n.members := by simp [units, hname]
    have hname' := (typeName?_emptiedIn j n).trans hname
    refine .members hname hname' (classOutline_emptiedIn hname j).symm (fieldNodes_emptiedIn j n).symm ?_
    rw [← hunits _ hname', units_emptiedIn, ← hunits _ hname]
    exact forall₂_modify .same fun u hu => interchangeable_emptied (h u hu)

end

namespace Block

def locals (b : Block) : List String := (allDeclared false b.known (b.node.body?.getD [])).map Prod.fst

def calls (b : Block) : List Node := (b.node.body?.getD []).flatMap Node.calls

end Block

section

/-- The table of the emptied program is alike, except for the names that the body of the function declares. -/
theorem Fits.alike_emptiedAt (h : Fits W .program m) (hf : m.routineAt? p = some f) :
    SymbolTable.Alike (fun name => decide (name ∉ f.locals)) m.symbols (m.emptiedAt p).symbols := by
  refine h.alike_symbols (h.emptiedAt p) ?_
  obtain ⟨known, n, head, params, body, typeParams, annotations, hi, hu, rfl⟩ := exists_of_routineAt? hf
  rw [items_emptiedAt]
  refine forall₂_modify (fun i => .same i.2) fun i hi' => ?_
  cases hi.symm.trans hi'
  refine topInterchangeable_emptiedIn fun u hu' x hx => ?_
  cases hu.symm.trans hu'
  have hlocal : x.1 ∈ Block.locals ⟨routineScope n.typeName? head.name, n.typeName?.getD "global", known,
      .function head params body typeParams annotations⟩ := mem_map_of_mem hx
  simpa using hlocal

/-- The tables agree in every scope other than that of the function, if this is the scope of no class. -/
theorem Fits.agree_emptiedAt (h : Fits W .program m) (hf : m.routineAt? p = some f) (hglobal : f.scope ≠ "global")
    (hclass : f.scope ∉ m.typeNames) (hscope : f.scope ≠ scope) :
    SymbolTable.Agree scope m.symbols (m.emptiedAt p).symbols := by
  have hlast {s : String} (hs : f.scope ≠ s) (name : String) :
      last? m.declarations s name = last? (m.emptiedAt p).declarations s name :=
    last?_congr (filter_declarations_emptiedAt hf hs).symm name
  refine (h.alike_emptiedAt hf).sameOutline.agree h.records_symbols (h.emptiedAt p).records_symbols ?_ ?_
  · intro name
    rw [visible?, visible?, openings_emptiedAt]
    cases hc : NameMap.get? (chains m.openings) scope with
    | none => rfl
    | some =>
      -- The scope of the function is not on the chain, so every scope on it still says the same.
      refine findSome?_congr_of_mem fun s hs => hlast (fun he => ?_) name
      rcases mem_of_get?_chains hc (takeWhile_subset _ hs) with hs | hs | hs
      · exact hscope (he.trans hs)
      · exact hglobal (he.trans hs)
      · rcases parent_mem_openings hs with hs | hs
        · exact hglobal (he.trans hs)
        · exact hclass (he ▸ hs)
  · intro cls name hcls
    rw [h.records_symbols.classes, decide_eq_true_eq] at hcls
    exact hlast (fun he => hclass (he ▸ hcls)) name

end

/-! ### Calls of a function -/

namespace Node

theorem infix_calls {f : String × Field} (h : f ∈ n.fields) : f.2.plainMembers.flatMap calls <:+: n.calls := by
  have hfield : f.2.plainMembers.flatMap calls ∈ n.fields.map fun f => f.2.plainMembers.flatMap calls :=
    mem_map_of_mem h
  rw [calls_eq]
  exact (infix_of_mem_flatten hfield).trans (suffix_append _ _).isInfix

theorem infix_calls_of_mem_units (h : u ∈ n.units) : u.calls <:+: n.calls := by
  have hmembers (hu : u ∈ n.members) {f : String × Field} (hf : f ∈ n.fields)
      (hn : f.2.plainMembers = n.members) : u.calls <:+: n.calls := by
    have hbody := infix_calls hf
    rw [hn] at hbody
    exact (infix_flatMap_of_mem hu calls).trans hbody
  cases n with
  | classDecl _ body => exact hmembers h (f := ("body", .nodes (some body))) (.tail _ (.head _)) rfl
  | dataClass _ _ body | enumDecl _ _ body =>
    exact hmembers h (f := ("body", .nodes (some body))) (.tail _ (.tail _ (.head _))) rfl
  | _ =>
    cases mem_singleton.mp h
    exact infix_refl _

theorem infix_calls_of_routineAt? (h : (module body).routineAt? q = some g) : g.calls <:+: (module body).calls := by
  obtain ⟨known, n, head, params, gbody, typeParams, annotations, hi, hu, rfl⟩ := exists_of_routineAt? h
  have hn : n ∈ (module body).statements := by
    rw [← map_snd_items]
    exact mem_map_of_mem (mem_of_getElem? hi)
  have hbody := infix_calls (n := function head params gbody typeParams annotations)
    (f := ("body", .nodes gbody)) (.tail _ (.tail _ (.head _)))
  have hunit := infix_calls_of_mem_units (mem_of_getElem? hu)
  have hstatement : n.calls <:+: (module body).calls := by
    rw [calls_module]
    exact infix_flatMap_of_mem hn calls
  have hcalls : Field.plainMembers (.nodes gbody) = gbody.getD [] := by cases gbody <;> rfl
  rw [hcalls] at hbody
  exact (hbody.trans hunit).trans hstatement

end Node

/-! ### Findings on another function -/

def SymbolTable.boundFindingsIn (t : SymbolTable) (g : Block) : List Finding :=
  g.calls.flatMap (t.boundFindingsAt t.variableTypes)

/-- No name that a function declares in its body is passed to a class with bounds in the body of the other. -/
def Block.NamesApart (f : Block) (t : SymbolTable) (g : Block) : Prop :=
  ∀ c ∈ g.calls, ∀ name ∈ t.boundArguments c, name ∉ f.locals

instance (f : Block) (t : SymbolTable) (g : Block) : Decidable (f.NamesApart t g) :=
  inferInstanceAs (Decidable (∀ c ∈ g.calls, ∀ name ∈ t.boundArguments c, name ∉ f.locals))

/-- The function at `p` shares its scope with no class and with no expression at `q`.  Before a call at `q`, it binds no
type parameter for the receiver, and no other call with this receiver is in its scope. -/
structure Node.Apart (m : Node) (f : Block) (p q : Spot) : Prop where
  notGlobal : f.scope ≠ "global"
  notClass : f.scope ∉ m.typeNames
  ownScope : ∀ v ∈ m.visits, v.place = q → f.scope ≠ v.scope
  receivers : m.visits.Pairwise fun v w => w.place = q → ∀ r ∈ w.expression.receiver?,
    (v.place = p → m.symbols.genericReceiver? v.scope v.expression ≠ some r) ∧
    (v.place ≠ p → v.expression.receiver? = some r → f.scope ≠ v.scope)

instance (m : Node) (f : Block) (p q : Spot) : Decidable (m.Apart f p q) :=
  decidable_of_iff (f.scope ≠ "global" ∧ f.scope ∉ m.typeNames ∧ (∀ v ∈ m.visits, v.place = q → f.scope ≠ v.scope) ∧
    m.visits.Pairwise fun v w => w.place = q → ∀ r ∈ w.expression.receiver?,
      (v.place = p → m.symbols.genericReceiver? v.scope v.expression ≠ some r) ∧
      (v.place ≠ p → v.expression.receiver? = some r → f.scope ≠ v.scope))
    ⟨fun h => ⟨h.1, h.2.1, h.2.2.1, h.2.2.2⟩, fun h => ⟨h.notGlobal, h.notClass, h.ownScope, h.receivers⟩⟩

section

theorem Fits.typeReports_emptiedAt (h : Fits W .program m) (hf : m.routineAt? p = some f) (hpq : p ≠ q)
    (hapart : m.Apart f p q) (b : NameMap Bindings) :
    (m.typeReports b).filter (·.1 = q) = ((m.emptiedAt p).typeReports b).filter (·.1 = q) := by
  have hagree {v : Visit Spot} (hv : f.scope ≠ v.scope) : SymbolTable.Agree v.scope m.symbols (m.emptiedAt p).symbols :=
    h.agree_emptiedAt hf hapart.notGlobal hapart.notClass hv
  rw [Node.typeReports, Node.typeReports, visits_emptiedAt hf]
  refine reports_filter_eq hpq (fun v hv hq => hagree (hapart.ownScope v hv hq)) ?_ fun _ _ _ _ _ => rfl
  refine hapart.receivers.imp fun hreceivers hq r hr => ?_
  exact ⟨(hreceivers hq r hr).1, fun hp hv => hagree ((hreceivers hq r hr).2 hp hv)⟩

theorem Fits.boundFindingsIn_emptiedAt (h : Fits W .program m) (hf : m.routineAt? p = some f)
    (hnames : f.NamesApart m.symbols g) :
    m.symbols.boundFindingsIn g = (m.emptiedAt p).symbols.boundFindingsIn g := by
  have halike := h.alike_emptiedAt hf
  refine flatMap_congr fun c hc => halike.sameOutline.boundFindingsAt_eq fun name hname => ?_
  exact halike.get?_variableTypes_eq (by simpa using hnames c hc name hname)

end

/-- The findings on a function are those that remain when the body of another one is a single `pass`: those of the check
of types if the other function shares no scope and no receiver with it, and those of the check of bounds if the other
one declares no name that is passed to a class with bounds. -/
theorem findings_emptiedAt {tokens : List Token} {m : Node} (hm : parseTokens tokens = .ok m) {p q : Spot} {f g : Block}
    (hpq : p ≠ q) (hf : m.routineAt? p = some f) (hg : m.routineAt? q = some g) :
    (m.emptiedAt p).routineAt? q = some g ∧
    (∀ n ∈ [m, m.emptiedAt p], (∀ b, (n.typeReports b).map Prod.snd = (n.symbols.checkTypes n b).findings) ∧
      n.symbols.boundFindingsIn g <:+: n.symbols.boundFindings n) ∧
    (m.Apart f p q → ∀ b, (m.typeReports b).filter (·.1 = q) = ((m.emptiedAt p).typeReports b).filter (·.1 = q)) ∧
    (f.NamesApart m.symbols g → m.symbols.boundFindingsIn g = (m.emptiedAt p).symbols.boundFindingsIn g) := by
  have hfits : Fits (fun _ _ => True) .program m := parseTokens_fits (fun _ _ => trivial) hm
  have hg' : (m.emptiedAt p).routineAt? q = some g := (routineAt?_emptiedAt hpq m).trans hg
  have hfindings {body : List Node} (hg : (module body).routineAt? q = some g) :
      (∀ b, ((module body).typeReports b).map Prod.snd = ((module body).symbols.checkTypes (module body) b).findings) ∧
        (module body).symbols.boundFindingsIn g <:+: (module body).symbols.boundFindings (module body) :=
    ⟨map_snd_typeReports body, List.IsInfix.flatMap (infix_calls_of_routineAt? hg) _⟩
  refine ⟨hg', ?_, hfits.typeReports_emptiedAt hf hpq, hfits.boundFindingsIn_emptiedAt hf⟩
  cases hfits with
  | module => simpa using ⟨hfindings hg, hfindings hg'⟩

/-- Two functions that make a box and call its method, the second one with wrong arguments. -/
def boxesSource : String :=
  "class A \x7b\n\x7d\nclass Box<T extends A> \x7b\ndef Box(v: T) \x7b\npass;\n\x7d\n" ++
    "def put(v: T) -> None \x7b\npass;\n\x7d\n\x7d\n" ++
    "def f() \x7b\nb: Box = Box(1);\nb.put(1);\n\x7d\ndef g(x: int) \x7b\nc: Box = Box(x);\nc.put(x, x);\n\x7d\n"

theorem findings_emptiedAt_boxes : ∃ tokens m, tokenize boxesSource = .ok tokens ∧ parseTokens tokens = .ok m ∧
    ∃ f ∈ m.routineAt? (2, 0), ∃ g ∈ m.routineAt? (3, 0), m.Apart f (2, 0) (3, 0) ∧ f.NamesApart m.symbols g ∧
      ((m.emptiedAt (2, 0)).typeReports []).filter (·.1 = (3, 0)) =
        [((3, 0), ⟨.noOverload (some "Box") "put" [some "int", some "int"], {}⟩)] ∧
      (m.emptiedAt (2, 0)).symbols.boundFindingsIn g = [⟨.outOfBound "int" "Box" "T" "A", {}⟩] := by
  obtain ⟨tokens, m, htokens, hm, f, hf, g, hg, hapart, hnames, htypes, hbounds⟩ : ∃ tokens m,
      tokenize boxesSource = .ok tokens ∧ parseTokens tokens = .ok m ∧
      ∃ f ∈ m.routineAt? (2, 0), ∃ g ∈ m.routineAt? (3, 0), m.Apart f (2, 0) (3, 0) ∧ f.NamesApart m.symbols g ∧
        (m.typeReports []).filter (·.1 = (3, 0)) =
          [((3, 0), ⟨.noOverload (some "Box") "put" [some "int", some "int"], {}⟩)] ∧
        m.symbols.boundFindingsIn g = [⟨.outOfBound "int" "Box" "T" "A", {}⟩] := exists_parsed (by decide +kernel)
  obtain ⟨-, -, hreports, hfindings⟩ := findings_emptiedAt hm (by decide) hf hg
  exact ⟨tokens, m, htokens, hm, f, hf, g, hg, hapart, hnames, (hreports hapart []).symm.trans htypes,
    (hfindings hnames).symm.trans hbounds⟩

/-- Two functions that use boxes of the same name, for numbers and for texts. -/
def sameNameSource : String :=
  "class Box<T> \x7b\ndef put(v: T) -> None \x7b\npass;\n\x7d\n\x7d\n" ++
    "def f() \x7b\nb: Box = Box();\nb.put(1);\n\x7d\ndef g() \x7b\nb: Box = Box();\nb.put(\"s\");\n\x7d\n"

/-- A function with a parameter of a class, and one with a number of the same name. -/
def sameArgumentSource : String :=
  "class A \x7b\n\x7d\nclass Box<T extends A> \x7b\ndef Box(v: T) \x7b\npass;\n\x7d\n\x7d\n" ++
    "def g(x: A) \x7b\nBox(x);\n\x7d\ndef f() \x7b\nx: int = 1;\n\x7d\n"

/-- A finding on one function can come from the body of another that uses the same name for something else: from a box
that is bound to numbers there, or from a number where a class is asked for. -/
theorem exists_findings_of_other_body :
    (∃ tokens m, tokenize sameNameSource = .ok tokens ∧ parseTokens tokens = .ok m ∧
      ((m.routineAt? (1, 0)).map (·.node.name), (m.routineAt? (2, 0)).map (·.node.name)) = (some "f", some "g") ∧
      (m.typeReports []).filter (·.1 = (2, 0)) = [((2, 0), ⟨.noOverload (some "Box") "put" [some "str"], {}⟩)] ∧
      (m.emptiedAt (1, 0)).typeReports [] = []) ∧
    ∃ tokens m, tokenize sameArgumentSource = .ok tokens ∧ parseTokens tokens = .ok m ∧
      ((m.routineAt? (2, 0)).map (·.node.name), (m.routineAt? (3, 0)).map (·.node.name)) = (some "g", some "f") ∧
      (∃ g ∈ m.routineAt? (2, 0), m.symbols.boundFindingsIn g = [⟨.outOfBound "int" "Box" "T" "A", {}⟩]) ∧
      (m.emptiedAt (3, 0)).symbols.boundFindings (m.emptiedAt (3, 0)) = [] :=
  ⟨exists_parsed (by decide +kernel), exists_parsed (by decide +kernel)⟩

end BraceLang
