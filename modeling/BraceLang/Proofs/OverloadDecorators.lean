import BraceLang.Analysis.Overloads
import BraceLang.Proofs.Appending

/-!
# The decorators of overloads

Overloads are told apart by the names and parameter types of functions, and giving them their decorators changes
neither.
-/

namespace BraceLang

open List

variable {body : List Node} {P P' : Node → Prop} {n : Node}

namespace Node

variable {earlier : List Node}

/-! ### What overloads are told apart by -/

def overloadKey? : Node → Option (String × List String)
  | function h params .. => some (h.name, params.map parameterType)
  | _ => none

/-- What a report of an overload shows: its name, its parameter types and its place. -/
def face (n : Node) : Option (String × List String) × Position := (n.overloadKey?, n.declaredAt)

theorem isFunctionNamed_eq (name : String) (n : Node) :
    n.isFunctionNamed name = n.overloadKey?.any fun key => key.1 = name := by
  cases n <;> rfl

theorem parameterTypes_eq (n : Node) : n.parameterTypes = (n.overloadKey?.map Prod.snd).getD [] := by
  cases n <;> rfl

def dispatchFor? (body earlier : List Node) (n : Node) : Option String :=
  n.overloadKey?.bind fun key =>
    let repeated := earlier.any fun e => e.isFunctionNamed key.1 &&
      signatureText key.1 e.parameterTypes = signatureText key.1 n.parameterTypes
    if 1 < (body.filter (isFunctionNamed key.1)).length && !repeated then some (dispatchDecorator n.parameterTypes)
    else none

theorem decorateOverload_eq (body earlier : List Node) (n : Node) :
    decorateOverload body earlier n = (dispatchFor? body earlier n).elim n (addDecorator · n) := by
  cases n with
  | function =>
    rw [decorateOverload, dispatchFor?, overloadKey?, Option.bind_some]
    dsimp only
    split <;> rfl
  | _ => rfl

variable {α : Type} {ns earlier' body' : List Node}

theorem dispatchFor?_congr (hbody : body.map overloadKey? = body'.map overloadKey?)
    (hearlier : earlier.map overloadKey? = earlier'.map overloadKey?) (hn : n.overloadKey? = n'.overloadKey?) :
    dispatchFor? body earlier n = dispatchFor? body' earlier' n' := by
  have hcount (name : String) (ns : List Node) : (ns.filter (isFunctionNamed name)).length =
      (ns.map overloadKey?).countP fun key => key.any fun key => key.1 = name := by
    rw [← countP_eq_length_filter, countP_map]
    exact congrArg (countP · ns) (funext (isFunctionNamed_eq name))
  have hany (name text : String) (ns : List Node) :
      ns.any (fun e => e.isFunctionNamed name && signatureText name e.parameterTypes = text) =
      (ns.map overloadKey?).any fun k => k.any (fun k => k.1 = name) &&
        signatureText name ((k.map Prod.snd).getD []) = text := by
    rw [any_map]
    refine congrArg (any ns) (funext fun e => ?_)
    rw [isFunctionNamed_eq, parameterTypes_eq]
    rfl
  unfold dispatchFor?
  rw [parameterTypes_eq n, parameterTypes_eq n', hn]
  congr 1
  funext key
  rw [hcount, hcount, hany, hany, hbody, hearlier]

/-! ### One more decorator -/

theorem apply_addDecorator {g : Node → α} (hg : ∀ h ds params body typeParams annotations,
      g (function { h with decorators := ds } params body typeParams annotations) =
        g (function h params body typeParams annotations)) (d : String) (n : Node) : g (addDecorator d n) = g n := by
  cases n with
  | function =>
    rw [addDecorator]
    split
    · rfl
    · exact hg ..
  | _ => rfl

theorem decorateClasses_eq_or (n : Node) : n.decorateClasses = n ∨ ∃ body, n.decorateClasses = n.withBody body := by
  cases n with
  | function h params body =>
    cases body with
    | none => exact .inl rfl
    | some => exact .inr ⟨_, rfl⟩
  | module | classDecl | forLoop | whileLoop | case | dataClass | enumDecl => exact .inr ⟨_, rfl⟩
  | _ => exact .inl rfl

theorem apply_decorateClasses {g : Node → α} (hg : ∀ n body, g (withBody body n) = g n) (n : Node) :
    g n.decorateClasses = g n := by
  rcases n.decorateClasses_eq_or with heq | ⟨body, heq⟩
  · rw [heq]
  · rw [heq, hg]

theorem face_addDecorator (d : String) (n : Node) : (addDecorator d n).face = n.face :=
  apply_addDecorator (fun _ _ _ _ _ _ => rfl) d n

theorem face_decorateClasses (n : Node) : n.decorateClasses.face = n.face :=
  apply_decorateClasses (fun n _ => by cases n <;> rfl) n

theorem overloadKey?_addDecorator (d : String) (n : Node) : (addDecorator d n).overloadKey? = n.overloadKey? :=
  congrArg Prod.fst (face_addDecorator d n)

theorem overloadKey?_decorateClasses (n : Node) : n.decorateClasses.overloadKey? = n.overloadKey? :=
  congrArg Prod.fst (face_decorateClasses n)

theorem addDecorator_addDecorator (d : String) (n : Node) : addDecorator d (addDecorator d n) = addDecorator d n := by
  cases n with
  | function h params body typeParams annotations =>
    rw [addDecorator]
    split
    · next hd => rw [addDecorator, if_pos hd]
    · rw [addDecorator, if_pos (by simp)]
  | _ => rfl

theorem decorateClasses_addDecorator (d : String) (n : Node) :
    (addDecorator d n).decorateClasses = addDecorator d n.decorateClasses := by
  cases n with
  | function h params body =>
    cases body <;> simp only [addDecorator, decorateClasses] <;> split <;> rfl
  | _ => rfl

theorem overloadKey?_decorateOverload (body earlier : List Node) (n : Node) :
    (decorateOverload body earlier n).overloadKey? = n.overloadKey? := by
  rw [decorateOverload_eq]
  cases dispatchFor? body earlier n with
  | none => rfl
  | some d => exact overloadKey?_addDecorator d n

theorem decorateOverload_congr (hbody : body.map overloadKey? = body'.map overloadKey?)
    (hearlier : earlier.map overloadKey? = earlier'.map overloadKey?) (n : Node) :
    decorateOverload body earlier n = decorateOverload body' earlier' n := by
  rw [decorateOverload_eq, decorateOverload_eq, dispatchFor?_congr hbody hearlier rfl]

theorem decorateClasses_decorateOverload (body earlier : List Node) (n : Node) :
    (decorateOverload body earlier n).decorateClasses = decorateOverload body earlier n.decorateClasses := by
  rw [decorateOverload_eq, decorateOverload_eq,
    dispatchFor?_congr rfl rfl (overloadKey?_decorateClasses n)]
  cases dispatchFor? body earlier n with
  | none => rfl
  | some d => exact decorateClasses_addDecorator d n

theorem decorateOverload_decorateOverload (body earlier : List Node) (n : Node) :
    decorateOverload body earlier (decorateOverload body earlier n) = decorateOverload body earlier n := by
  rw [decorateOverload_eq body earlier (decorateOverload body earlier n),
    dispatchFor?_congr rfl rfl (overloadKey?_decorateOverload body earlier n), decorateOverload_eq]
  cases dispatchFor? body earlier n with
  | none => rfl
  | some d => exact addDecorator_addDecorator d n

/-! ### Bodies and programs -/

theorem decorateAll_eq_map (ns : List Node) : decorateAll ns = ns.map decorateClasses := by
  induction ns with
  | nil => rfl
  | cons n ns ih => rw [decorateAll, ih, map_cons]

theorem map_decorateAll {g : Node → α} (hg : ∀ n, g n.decorateClasses = g n) (ns : List Node) :
    (decorateAll ns).map g = ns.map g := by
  rw [decorateAll_eq_map, List.map_map]
  exact congrArg (ns.map ·) (funext hg)

theorem map_decorateRest {g : Node → α} (hg : ∀ d n, g (addDecorator d n) = g n) (body earlier ns : List Node) :
    (decorateRest body earlier ns).map g = ns.map g := by
  induction ns generalizing earlier with
  | nil => rfl
  | cons n ns ih =>
    have hn : g (decorateOverload body earlier n) = g n := by
      rw [decorateOverload_eq]
      cases dispatchFor? body earlier n with
      | none => rfl
      | some d => exact hg d n
    rw [decorateRest, map_cons, map_cons, hn, ih]

theorem map_decorateBody {g : Node → α} (hg : ∀ d n, g (addDecorator d n) = g n) (body : List Node) :
    (decorateBody body).map g = body.map g :=
  map_decorateRest hg body [] body

theorem decorateRest_congr (hbody : body.map overloadKey? = body'.map overloadKey?)
    (hearlier : earlier.map overloadKey? = earlier'.map overloadKey?) (ns : List Node) :
    decorateRest body earlier ns = decorateRest body' earlier' ns := by
  induction ns generalizing earlier earlier' with
  | nil => rfl
  | cons n ns ih =>
    rw [decorateRest, decorateRest, decorateOverload_congr hbody hearlier]
    exact congrArg _ (ih (by rw [map_append, map_append, hearlier]))

theorem decorateAll_decorateRest (body earlier ns : List Node) :
    decorateAll (decorateRest body earlier ns) = decorateRest body earlier (decorateAll ns) := by
  induction ns generalizing earlier with
  | nil => rfl
  | cons n ns ih =>
    rw [decorateRest, decorateAll, decorateAll, decorateRest, decorateClasses_decorateOverload, ih]
    exact congrArg _ (decorateRest_congr rfl (by simp [overloadKey?_decorateClasses]) _)

theorem decorateRest_decorateRest (body earlier ns : List Node) :
    decorateRest body earlier (decorateRest body earlier ns) = decorateRest body earlier ns := by
  induction ns generalizing earlier with
  | nil => rfl
  | cons n ns ih =>
    rw [decorateRest, decorateRest, decorateOverload_decorateOverload]
    refine congrArg _ ((decorateRest_congr rfl ?_ _).trans (ih (earlier ++ [n])))
    simp [overloadKey?_decorateOverload]

theorem decorateBody_decorateBody (body : List Node) : decorateBody (decorateBody body) = decorateBody body := by
  have hkeys := map_decorateBody overloadKey?_addDecorator body
  exact (decorateRest_congr hkeys rfl _).trans (decorateRest_decorateRest body [] body)

theorem decorateAll_decorateBody (body : List Node) :
    decorateAll (decorateBody body) = decorateBody (decorateAll body) := by
  have hkeys := map_decorateAll overloadKey?_decorateClasses body
  exact (decorateAll_decorateRest body [] body).trans (decorateRest_congr hkeys.symm rfl _)

theorem decorateBody_decorateAll_twice (h : decorateAll (decorateAll body) = decorateAll body) :
    decorateBody (decorateAll (decorateBody (decorateAll body))) = decorateBody (decorateAll body) := by
  rw [decorateAll_decorateBody, h, decorateBody_decorateBody]

theorem decorateAll_decorateAll_of (h : ∀ n ∈ ns, n.decorateClasses.decorateClasses = n.decorateClasses) :
    decorateAll (decorateAll ns) = decorateAll ns := by
  rw [decorateAll_eq_map, decorateAll_eq_map, List.map_map]
  exact map_congr_left h

theorem decorateClasses_decorateClasses (n : Node) : n.decorateClasses.decorateClasses = n.decorateClasses := by
  induction n using body_induction with
  | h n ih =>
    have hbody (body : List Node) (h : n.body? = some body) : decorateAll (decorateAll body) = decorateAll body :=
      decorateAll_decorateAll_of (ih body h)
    cases n with
    | classDecl => rw [decorateClasses, decorateClasses, decorateBody_decorateAll_twice (hbody _ rfl)]
    | function h params body =>
      cases body with
      | none => rfl
      | some => rw [decorateClasses, decorateClasses, hbody _ rfl]
    | module | forLoop | whileLoop | case | dataClass | enumDecl =>
      rw [decorateClasses, decorateClasses, hbody _ rfl]
    | _ => rfl

theorem decorated_decorated (n : Node) : n.decorated.decorated = n.decorated := by
  cases n with
  | module body =>
    have hbody := decorateAll_decorateAll_of fun n (_ : n ∈ body) => decorateClasses_decorateClasses n
    rw [decorated, decorated, decorateBody_decorateAll_twice hbody]
  | _ => rfl

end Node

/-! ### The groups of overloads -/

namespace OverloadGroup

open Node

variable {g g' : OverloadGroup}

def view (g : OverloadGroup) : Option String × String × List (Option (String × List String) × Position) :=
  (g.owner, g.name, g.functions.map face)

def faceSignature (name : String) (x : Option (String × List String) × Position) : String :=
  signatureText name ((x.1.map Prod.snd).getD [])

theorem signature_eq (g : OverloadGroup) (f : Node) : g.signature f = faceSignature g.name f.face := by
  rw [signature, parameterTypes_eq]
  rfl

theorem map_face_split (g : OverloadGroup) :
    g.split.map (List.map face) (List.map face) =
      (g.functions.map face).foldl (fun (firsts, again) x =>
        if firsts.any fun y => faceSignature g.name y = faceSignature g.name x then (firsts, again ++ [x])
        else (firsts ++ [x], again)) ([], []) := by
  rw [foldl_map]
  refine (foldl_hom (Prod.map (List.map face) (List.map face)) ?_).symm
  rintro ⟨firsts, again⟩ f
  have hany : (firsts.map face).any (fun y => faceSignature g.name y = faceSignature g.name f.face) =
      firsts.any fun e => g.signature e = g.signature f := by
    rw [any_map]
    refine congrArg (any firsts) (funext fun e => ?_)
    rw [signature_eq, signature_eq]
    rfl
  rw [Prod.map_apply]
  dsimp only
  rw [hany]
  split <;> simp

theorem map_face_split_congr (h : g.view = g'.view) :
    g.split.1.map face = g'.split.1.map face ∧ g.split.2.map face = g'.split.2.map face := by
  obtain ⟨-, hrest⟩ := Prod.mk.inj h
  obtain ⟨hname, hfaces⟩ := Prod.mk.inj hrest
  have hsplit := map_face_split g
  rw [hname, hfaces, ← map_face_split g'] at hsplit
  exact ⟨congrArg Prod.fst hsplit, congrArg Prod.snd hsplit⟩

theorem findings_congr (h : g.view = g'.view) : g.findings = g'.findings := by
  have hfinding (g : OverloadGroup) : g.findings = (g.split.2.map face).map fun x =>
      ⟨.duplicateOverload g.namedOwner g.name (faceSignature g.name x), x.2⟩ := by
    rw [findings, List.map_map]
    refine congrArg (List.map · g.split.2) (funext fun f => ?_)
    rw [signature_eq]
    rfl
  obtain ⟨howner, hrest⟩ := Prod.mk.inj h
  rw [hfinding, hfinding, (map_face_split_congr h).2, namedOwner, namedOwner, howner, (Prod.mk.inj hrest).1]

theorem record_congr (h : g.view = g'.view) : g.record = g'.record := by
  have hsignatures (g : OverloadGroup) (signatures : NameMap String) :
      g.split.1.foldl (fun s f => NameMap.put (g.signature f) (dispatchDecorator f.parameterTypes) s) signatures =
        (g.split.1.map face).foldl (fun s x => NameMap.put (faceSignature g.name x)
          (dispatchDecorator ((x.1.map Prod.snd).getD [])) s) signatures := by
    rw [foldl_map]
    congr 1
    funext s f
    rw [signature_eq, parameterTypes_eq]
    rfl
  obtain ⟨howner, hrest⟩ := Prod.mk.inj h
  have hname := (Prod.mk.inj hrest).1
  funext t
  rw [record, record, key, key, howner, hname]
  congr 1
  funext signatures
  rw [hsignatures, hsignatures, (map_face_split_congr h).1, hname]

end OverloadGroup

open OverloadGroup

namespace Node

theorem functionNames_eq (body : List Node) :
    functionNames body = ((body.map face).filterMap fun x => x.1.map Prod.fst).eraseDups := by
  rw [functionNames, filterMap_map]
  congr 2
  funext n
  cases n <;> rfl

theorem map_view_overloadGroups (owner : Option String) (h : body.map face = body'.map face) :
    (overloadGroups owner body).map view = (overloadGroups owner body').map view := by
  have hgroups (body : List Node) : (overloadGroups owner body).map view =
      ((functionNames body).map fun name => (owner, name, (body.map face).filter fun x =>
        x.1.any fun key => key.1 = name)).filter fun v => 1 < v.2.2.length := by
    have hview (name : String) : view ⟨owner, name, body.filter (isFunctionNamed name)⟩ =
        (owner, name, (body.map face).filter fun x => x.1.any fun key => key.1 = name) := by
      rw [view, filter_map]
      congr 3
      exact congrArg (filter · body) (funext (isFunctionNamed_eq name))
    rw [← funext hview, overloadGroups, filter_map, filter_map, List.map_map]
    congr 2
    funext name
    simp [view]
  rw [hgroups, hgroups, functionNames_eq, functionNames_eq, h]

theorem classOverloads_addDecorator (d : String) (n : Node) : (addDecorator d n).classOverloads = n.classOverloads :=
  apply_addDecorator (fun _ _ _ body _ _ => by cases body <;> simp [classOverloads]) d n

theorem allClassOverloads_eq (ns : List Node) : allClassOverloads ns = (ns.map classOverloads).flatten := by
  induction ns with
  | nil => rfl
  | cons n ns ih => rw [allClassOverloads, ih, map_cons, flatten_cons]

theorem allClassOverloads_decorateBody (body : List Node) :
    allClassOverloads (decorateBody body) = allClassOverloads body := by
  rw [allClassOverloads_eq, allClassOverloads_eq, map_decorateBody classOverloads_addDecorator]

theorem map_view_decorateBody (owner : Option String)
    (h : (allClassOverloads (decorateAll body)).map view = (allClassOverloads body).map view) :
    (overloadGroups owner (decorateBody (decorateAll body)) ++
        allClassOverloads (decorateBody (decorateAll body))).map view =
      (overloadGroups owner body ++ allClassOverloads body).map view := by
  have hfaces := (map_decorateBody face_addDecorator (decorateAll body)).trans
      (map_decorateAll face_decorateClasses body)
  rw [map_append, map_append, map_view_overloadGroups owner hfaces, allClassOverloads_decorateBody, h]

theorem map_view_decorateAll (h : ∀ n ∈ ns,
      n.decorateClasses.classOverloads.map view = n.classOverloads.map view) :
    (allClassOverloads (decorateAll ns)).map view = (allClassOverloads ns).map view := by
  rw [allClassOverloads_eq, allClassOverloads_eq, decorateAll_eq_map, map_flatten, map_flatten, List.map_map,
    List.map_map, List.map_map]
  exact congrArg flatten (map_congr_left h)

theorem map_view_classOverloads (n : Node) : n.decorateClasses.classOverloads.map view = n.classOverloads.map view := by
  induction n using body_induction with
  | h n ih =>
    cases n with
    | classDecl h =>
      exact map_view_decorateBody (some h.name) (map_view_decorateAll (ih _ rfl))
    | function h params body =>
      cases body with
      | none => rfl
      | some => exact map_view_decorateAll (ih _ rfl)
    | module | forLoop | whileLoop | case | dataClass | enumDecl => exact map_view_decorateAll (ih _ rfl)
    | _ => rfl

theorem map_view_overloads (n : Node) : n.decorated.overloads.map view = n.overloads.map view := by
  cases n with
  | module => exact map_view_decorateBody none (map_view_decorateAll fun n _ => map_view_classOverloads n)
  | _ => rfl

theorem of_map_view {gs gs' : List OverloadGroup} (h : gs.map view = gs'.map view)
    {f : OverloadGroup → α} (hf : ∀ g g', g.view = g'.view → f g = f g') : gs.map f = gs'.map f := by
  induction gs generalizing gs' with
  | nil =>
    rw [map_nil, eq_comm, map_eq_nil_iff] at h
    rw [h]
  | cons g gs ih =>
    obtain ⟨g', rest, rfl, hg, hrest⟩ := map_eq_cons_iff.1 h.symm
    rw [map_cons, map_cons, hf g g' hg.symm, ih hrest.symm]

theorem overloadFindings_decorated (n : Node) : n.decorated.overloadFindings = n.overloadFindings := by
  exact congrArg flatten (of_map_view (map_view_overloads n) fun _ _ => findings_congr)

theorem overloadTable_decorated (n : Node) : n.decorated.overloadTable = n.overloadTable := by
  have hrecords := of_map_view (map_view_overloads n) fun _ _ => record_congr
  have htable (n : Node) : n.overloadTable = (n.overloads.map record).foldl (fun t r => r t) [] := by
    rw [foldl_map]
    rfl
  rw [htable, htable, hrecords]

/-! ### The decorators of a program -/

def decorators : Node → List String
  | function h .. => h.decorators
  | _ => []

theorem parts_addDecorator (d : String) (n : Node) : (addDecorator d n).parts = n.parts :=
  apply_addDecorator (fun _ _ _ _ _ _ => rfl) d n

theorem mem_exchange (front back : List α) (h : y ∈ front ++ x' :: back) : y ∈ front ++ x :: back ∨ y = x' := by
  rcases mem_append.1 h with h | h
  · exact .inl (mem_append_left _ h)
  · rcases mem_cons.1 h with h | h
    · exact .inr h
    · exact .inl (mem_append_right _ (mem_cons_of_mem _ h))

theorem mem_fields_withBody (h : f ∈ (n.withBody body).fields) : f ∈ n.fields ∨ f.2 = .nodes (some body) := by
  have hexchange (i : Nat) {x x' : String × Field} (hn : n.fields = n.fields.take i ++ x :: n.fields.drop (i + 1))
      (hbody : (n.withBody body).fields = n.fields.take i ++ x' :: n.fields.drop (i + 1))
      (hx' : x'.2 = .nodes (some body)) : f ∈ n.fields ∨ f.2 = .nodes (some body) := by
    rw [hbody] at h
    rw [hn]
    exact (mem_exchange _ _ h).imp_right fun hf => (congrArg Prod.snd hf).trans hx'
  cases n with
  | module => exact hexchange 0 rfl rfl rfl
  | classDecl _ _ _ _ | forLoop _ _ | whileLoop _ _ | case _ _ => exact hexchange 1 rfl rfl rfl
  | dataClass _ _ _ _ _ _ _ | enumDecl _ _ _ _ _ | function _ _ _ _ _ => exact hexchange 2 rfl rfl rfl
  | _ => exact .inl h

theorem isPresent_of_withBody (h : (n.withBody body).isPresent) : n.isPresent := by
  cases n with
  | missing => exact h
  | _ => rfl

/-- A property of nodes that their statements do not matter to, and what becomes of it when there is a decorator
more. -/
structure Outlasts (P P' : Node → Prop) : Prop where
  missing : P missing
  keep : ∀ n, P n → P' n
  withBody : ∀ n body, P n → P (n.withBody body)
  addDecorator : ∀ d n, P n → P' (addDecorator d n)

theorem Outlasts.decorateClasses (hP : Outlasts P P') (h : P n) : P n.decorateClasses := by
  rcases n.decorateClasses_eq_or with heq | ⟨body, heq⟩
  · rwa [heq]
  · rw [heq]
    exact hP.withBody n body h

section

theorem Everywhere.mono (h : n.Everywhere P) (hP : ∀ m, P m → P' m) : n.Everywhere P' :=
  fun m hm hpresent => hP m (h m hm hpresent)

theorem Everywhere.withBody (hP : Outlasts P P') (h : n.Everywhere P) (hbody : ∀ m ∈ body, m.Everywhere P') :
    (n.withBody body).Everywhere P' := by
  refine everywhere_iff.2 ⟨fun hpresent => ?_, fun c hc => ?_⟩
  · exact hP.keep _ (hP.withBody n body (h.here (isPresent_of_withBody hpresent)))
  · obtain ⟨f, hf, hc⟩ := mem_flatMap.1 hc
    rcases mem_fields_withBody hf with hf | hf
    · exact (h.of_mem_fields hf hc).mono hP.keep
    · rw [hf] at hc
      exact hbody c hc

theorem Everywhere.addDecorator (hP : Outlasts P P') (h : n.Everywhere P') (hn : P n) (d : String) :
    (Node.addDecorator d n).Everywhere P' := by
  refine everywhere_iff.2 ⟨fun _ => hP.addDecorator d n hn, fun c hc => ?_⟩
  exact (everywhere_iff.1 h).2 c (parts_addDecorator d n ▸ hc)

theorem everywhere_decorateRest (hP : Outlasts P P') (hns : ∀ m ∈ ns, m.Everywhere P' ∧ P m)
    (earlier : List Node) : ∀ m ∈ decorateRest body earlier ns, m.Everywhere P' := by
  induction ns generalizing earlier with
  | nil => exact forall_mem_nil _
  | cons n ns ih =>
    obtain ⟨⟨hn, hbefore⟩, hns⟩ := forall_mem_cons.1 hns
    refine forall_mem_cons.2 ⟨?_, ih hns _⟩
    rw [decorateOverload_eq]
    cases dispatchFor? body earlier n with
    | none => exact hn
    | some d => exact hn.addDecorator hP hbefore d

/-- The functions of a body whose parts have been decorated have not, so each of them may get a decorator. -/
theorem everywhere_decorateBody (hP : Outlasts P P') (h : ∀ m ∈ body, m.Everywhere P)
    (hall : ∀ m ∈ decorateAll body, m.Everywhere P') : ∀ m ∈ decorateBody (decorateAll body), m.Everywhere P' := by
  refine everywhere_decorateRest hP (fun m hm => ⟨hall m hm, ?_⟩) []
  rw [decorateAll_eq_map] at hm
  obtain ⟨old, hold, rfl⟩ := mem_map.1 hm
  refine hP.decorateClasses ?_
  cases old with
  | missing => exact hP.missing
  | _ => exact (h _ hold).here

end

theorem Everywhere.decorateClasses (hP : Outlasts P P') (h : n.Everywhere P) : n.decorateClasses.Everywhere P' := by
  induction n using body_induction with
  | h n ih =>
    have hall (i : Nat) {name : String} {body : List Node} (hbody : n.body? = some body)
        (hi : n.fields[i]? = some (name, .nodes (some body))) : ∀ m ∈ decorateAll body, m.Everywhere P' := by
      rw [decorateAll_eq_map, forall_mem_map]
      exact fun m hm => ih body hbody m hm (h.nodes i hi m hm)
    cases n with
    | classDecl => exact h.withBody hP (everywhere_decorateBody hP (h.nodes 1) (hall 1 rfl rfl))
    | function head params body =>
      cases body with
      | none => exact h.mono hP.keep
      | some => exact h.withBody hP (hall 2 rfl rfl)
    | module => exact h.withBody hP (hall 0 rfl rfl)
    | forLoop | whileLoop | case => exact h.withBody hP (hall 1 rfl rfl)
    | dataClass | enumDecl => exact h.withBody hP (hall 2 rfl rfl)
    | _ => exact h.mono hP.keep

theorem Everywhere.decorated (hP : Outlasts P P') (h : n.Everywhere P) : n.decorated.Everywhere P' := by
  cases n with
  | module =>
    have hbody := h.nodes 0
    refine h.withBody hP (everywhere_decorateBody hP hbody ?_)
    rw [decorateAll_eq_map, forall_mem_map]
    exact fun m hm => (hbody m hm).decorateClasses hP
  | _ => exact h.mono hP.keep

theorem outlasts_decorators {Q Q' : List String → Prop} (hnil : Q []) (hkeep : ∀ ds, Q ds → Q' ds)
    (hadd : ∀ d ds, Q ds → d ∉ ds → Q' (ds ++ [d])) :
    Outlasts (fun n => Q n.decorators) fun n => Q' n.decorators where
  missing := hnil
  keep n := hkeep n.decorators
  withBody n body h := by cases n <;> exact h
  addDecorator d n h := by
    cases n with
    | function head params body typeParams annotations =>
      rw [Node.addDecorator]
      split
      · exact hkeep _ h
      · next hd => exact hadd d _ h hd
    | _ => exact hkeep _ h

end Node

end BraceLang
