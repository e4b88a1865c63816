import BraceLang.Proofs.FinalMethods
import BraceLang.Proofs.Preliminary

/-!
# Overloads are told apart

If the check of overloads finds nothing, then the functions of one name at the top level or in one class have
signatures of their own, and each of them gets the decorator with the types of its parameters.
-/

namespace BraceLang

open List Node

variable {f : Node} {body : List Node} {name : String} {owner : Option String}

/-- Functions of one name in a body: if there are several, each has the decorator with the types of its parameters, no
two have the same signature, and no two have the same decorator where the types are written as they are. -/
def Dispatched (body : List Node) : Prop :=
  ∀ name, 1 < (body.filter (isFunctionNamed name)).length →
    (∀ f ∈ body.filter (isFunctionNamed name), f.decorators = [dispatchDecorator f.parameterTypes]) ∧
    (body.filter (isFunctionNamed name)).Pairwise fun f g =>
      signatureText name f.parameterTypes ≠ signatureText name g.parameterTypes ∧
        ((∀ type ∈ f.parameterTypes ++ g.parameterTypes, dispatchType type = type) → f.decorators ≠ g.decorators)

/-! ### The signatures of a group -/

theorem pairwise_of_foldl {key : Node → String}
    (hstep : ∀ found f, step found f =
      if found.1.any fun e => key e = key f then (found.1, found.2 ++ [f]) else (found.1 ++ [f], found.2))
    {fs : List Node} {found : List Node × List Node} (h : (fs.foldl step found).2 = []) :
    found.2 = [] ∧ (∀ e ∈ found.1, ∀ f ∈ fs, key e ≠ key f) ∧ fs.Pairwise fun e f => key e ≠ key f := by
  induction fs generalizing found with
  | nil => exact ⟨h, fun _ _ => forall_mem_nil _, .nil⟩
  | cons f fs ih =>
    obtain ⟨hfound, hbefore, hpairs⟩ := ih h
    rw [hstep] at hfound hbefore
    by_cases hrepeated : found.1.any fun e => key e = key f
    · rw [if_pos hrepeated] at hfound
      exact absurd hfound (by simp)
    · rw [if_neg hrepeated] at hfound hbefore
      have hnew : ∀ e ∈ found.1, key e ≠ key f := by simpa using hrepeated
      refine ⟨hfound, fun e he => forall_mem_cons.2 ⟨hnew e he, hbefore e (mem_append_left _ he)⟩, ?_⟩
      exact .cons (hbefore f (mem_append_right _ (mem_singleton_self f))) hpairs

theorem pairwise_signature (h : ∀ g ∈ overloadGroups owner body, g.findings = [])
    (hname : 1 < (body.filter (isFunctionNamed name)).length) :
    (body.filter (isFunctionNamed name)).Pairwise fun f g =>
      signatureText name f.parameterTypes ≠ signatureText name g.parameterTypes := by
  let g : OverloadGroup := ⟨owner, name, body.filter (isFunctionNamed name)⟩
  have hknown : name ∈ functionNames body := by
    obtain ⟨f, hf⟩ := exists_mem_of_length_pos (Nat.lt_of_succ_lt hname)
    obtain ⟨hbody, hf⟩ := mem_filter.1 hf
    rw [functionNames, mem_eraseDups, mem_filterMap]
    refine ⟨f, hbody, ?_⟩
    cases f with
    | function => exact congrArg some (of_decide_eq_true hf)
    | _ => cases hf
  have hg : g ∈ overloadGroups owner body :=
    mem_filter.2 ⟨mem_map_of_mem hknown, decide_eq_true hname⟩
  exact (pairwise_of_foldl (fun _ _ => rfl) (map_eq_nil_iff.1 (h g hg))).2.2

/-! ### The decorators of a group -/

theorem exists_of_mem_decorateRest (hbody : body = earlier ++ ns)
    (hname : 1 < (body.filter (isFunctionNamed name)).length)
    (hpairs : (body.filter (isFunctionNamed name)).Pairwise fun f g =>
      signatureText name f.parameterTypes ≠ signatureText name g.parameterTypes)
    (hf : f ∈ decorateRest body earlier ns) (hfunction : f.isFunctionNamed name) :
    ∃ f' ∈ ns, f = addDecorator (dispatchDecorator f'.parameterTypes) f' := by
  induction ns generalizing earlier with
  | nil => cases hf
  | cons n ns ih =>
    rw [decorateRest, mem_cons] at hf
    rcases hf with rfl | hf
    · have hn : n.isFunctionNamed name := by
        rw [isFunctionNamed_eq, ← overloadKey?_decorateOverload body earlier, ← isFunctionNamed_eq]
        exact hfunction
      have hnew : ∀ e ∈ earlier, e.isFunctionNamed name →
          signatureText name e.parameterTypes ≠ signatureText name n.parameterTypes := by
        rw [hbody, filter_append, filter_cons_of_pos hn, pairwise_append] at hpairs
        exact fun e he hname => hpairs.2.2 e (mem_filter.2 ⟨he, hname⟩) n mem_cons_self
      refine ⟨n, mem_cons_self, ?_⟩
      cases n with
      | function head =>
        obtain rfl : head.name = name := of_decide_eq_true hn
        exact if_pos (by simpa [hname] using hnew)
      | _ => cases hn
    · obtain ⟨f', hf', heq⟩ := ih (by rw [hbody, List.append_assoc, singleton_append]) hf
      exact ⟨f', mem_cons_of_mem _ hf', heq⟩

theorem decorators_addDecorator (h : f.isFunctionNamed name) (hnone : f.decorators = [])
    (d : String) : (addDecorator d f).decorators = [d] := by
  cases f with
  | function head =>
    have hhead : head.decorators = [] := hnone
    simp [addDecorator, decorators, hhead]
  | _ => cases h

theorem map_overloadKey?_filter (name : String) (ns : List Node) :
    (ns.filter (isFunctionNamed name)).map overloadKey? =
      (ns.map overloadKey?).filter fun key => key.any fun key => key.1 = name := by
  rw [filter_map, funext (isFunctionNamed_eq name)]
  rfl

/-- Where no type is replaced, the decorator tells as much as the signature. -/
theorem dispatchDecorator_ne (h : signatureText name types ≠ signatureText name types')
    (htypes : ∀ type ∈ types ++ types', dispatchType type = type) :
    dispatchDecorator types ≠ dispatchDecorator types' := by
  intro heq
  obtain ⟨hfirst, hsecond⟩ := forall_mem_append.1 htypes
  rw [dispatchDecorator, dispatchDecorator, map_congr_left hfirst, map_congr_left hsecond, map_id', map_id'] at heq
  have hlists := congrArg String.toList heq
  simp only [String.toList_append, append_cancel_left_eq, append_cancel_right_eq, String.toList_inj] at hlists
  rw [signatureText, signatureText, hlists] at h
  exact h rfl

theorem dispatched_decorateBody (h : ∀ g ∈ overloadGroups owner body, g.findings = [])
    (hnone : ∀ f ∈ body, f.decorators = []) : Dispatched (decorateBody body) := by
  intro name hname
  have hkeys : ((decorateBody body).filter (isFunctionNamed name)).map overloadKey? =
      (body.filter (isFunctionNamed name)).map overloadKey? := by
    rw [map_overloadKey?_filter, map_overloadKey?_filter, map_decorateBody overloadKey?_addDecorator]
  have hlength : 1 < (body.filter (isFunctionNamed name)).length := by
    rwa [← length_map overloadKey?, ← hkeys, length_map]
  have hpairs := pairwise_signature h hlength
  have hdecorators : ∀ f ∈ (decorateBody body).filter (isFunctionNamed name),
      f.decorators = [dispatchDecorator f.parameterTypes] := by
    intro f hf
    obtain ⟨hmem, hfunction⟩ := mem_filter.1 hf
    obtain ⟨f', hf', rfl⟩ := exists_of_mem_decorateRest (nil_append body).symm hlength hpairs hmem hfunction
    rw [isFunctionNamed_eq, overloadKey?_addDecorator, ← isFunctionNamed_eq] at hfunction
    rw [decorators_addDecorator hfunction (hnone f' hf'), parameterTypes_eq, parameterTypes_eq,
      overloadKey?_addDecorator]
  refine ⟨hdecorators, ?_⟩
  let differ (k k' : Option (String × List String)) : Prop :=
    signatureText name ((k.map Prod.snd).getD []) ≠ signatureText name ((k'.map Prod.snd).getD [])
  have hdiffer : (((decorateBody body).filter (isFunctionNamed name)).map overloadKey?).Pairwise differ := by
    rw [hkeys, pairwise_map]
    simpa only [parameterTypes_eq] using hpairs
  refine (pairwise_map.1 hdiffer).imp_of_mem fun {f g} hf hg hne => ?_
  rw [parameterTypes_eq f, parameterTypes_eq g]
  refine ⟨hne, fun htypes => ?_⟩
  rw [hdecorators f hf, hdecorators g hg, parameterTypes_eq f, parameterTypes_eq g]
  exact fun heq => dispatchDecorator_ne hne htypes (singleton_inj.1 heq)

/-! ### The bodies that are gone through -/

theorem dispatched_decorateAll (h : ∀ g ∈ overloadGroups owner body, g.findings = [])
    (hnone : ∀ f ∈ body, f.Everywhere fun n => n.decorators = []) : Dispatched (decorateBody (decorateAll body)) := by
  refine @dispatched_decorateBody _ owner (fun g hg => ?_) fun f hf => ?_
  · have hview := map_view_overloadGroups owner (map_decorateAll face_decorateClasses body)
    obtain ⟨g', hg', heq⟩ := mem_map.1 (hview ▸ mem_map_of_mem hg)
    rw [← OverloadGroup.findings_congr heq, h g' hg']
  · rw [decorateAll_eq_map] at hf
    obtain ⟨n, hn, rfl⟩ := mem_map.1 hf
    rw [@apply_decorateClasses _ decorators (fun n _ => by cases n <;> rfl)]
    cases n with
    | function => exact (hnone _ hn).here
    | _ => rfl

theorem allHeldClasses_decorateBody (body : List Node) : allHeldClasses (decorateBody body) = allHeldClasses body := by
  have hheld : ∀ d n, heldClasses (addDecorator d n) = heldClasses n := apply_addDecorator fun _ _ _ body _ _ => by
    cases body <;> rfl
  rw [allHeldClasses_eq, allHeldClasses_eq, flatMap_def, flatMap_def, map_decorateBody hheld]

theorem exists_of_mem_heldClasses (n : Node) : n.Everywhere P →
    ∀ c ∈ heldClasses n.decorateClasses, ∃ body, c.2 = decorateBody (decorateAll body) ∧
      (∀ m ∈ body, m.Everywhere P) ∧ ∀ g ∈ overloadGroups (some c.1.name) body, g ∈ n.classOverloads := by
  induction n using body_induction with
  | h n ih =>
    intro hP c hc
    have hbody (body : List Node) (h : n.body? = some body) (hc : c ∈ allHeldClasses (decorateAll body)) :
        ∃ body', c.2 = decorateBody (decorateAll body') ∧ (∀ m ∈ body', m.Everywhere P) ∧
          ∀ g ∈ overloadGroups (some c.1.name) body', g ∈ allClassOverloads body := by
      rw [allHeldClasses_eq, decorateAll_eq_map, mem_flatMap] at hc
      obtain ⟨_, hmap, hc⟩ := hc
      obtain ⟨m, hm, rfl⟩ := mem_map.1 hmap
      obtain ⟨body', heq, hall, hgroups⟩ := ih body h m hm (hP.of_mem_body h m hm) c hc
      refine ⟨body', heq, hall, fun g hg => ?_⟩
      rw [allClassOverloads_eq, mem_flatten]
      exact ⟨_, mem_map_of_mem hm, hgroups g hg⟩
    cases n with
    | classDecl head body =>
      rw [decorateClasses, heldClasses, allHeldClasses_decorateBody, mem_cons] at hc
      rcases hc with rfl | hc
      · exact ⟨body, rfl, hP.of_mem_body rfl, fun g hg => mem_append_left _ hg⟩
      · obtain ⟨body', heq, hall, hgroups⟩ := hbody body rfl hc
        exact ⟨body', heq, hall, fun g hg => mem_append_right _ (hgroups g hg)⟩
    | function _ _ body =>
      cases body with
      | none => cases hc
      | some body => exact hbody body rfl hc
    | module body | forLoop _ body | whileLoop _ body | case _ body | dataClass _ _ body | enumDecl _ _ body =>
      exact hbody body rfl hc
    | _ => cases hc

/-- If the check accepts a parsed program, then the functions of each name are told apart by their decorators, at the
top level and in every class that it holds. -/
theorem overloads_dispatched {tokens : List Token} {m : Node} (hm : parseTokens tokens = .ok m)
    (haccepted : m.overloadFindings = []) :
    Dispatched m.decorated.statements ∧ ∀ c ∈ allHeldClasses m.decorated.statements, Dispatched c.2 := by
  have hnone := everywhere_decorators_eq_nil hm
  have hfindings : ∀ g ∈ m.overloads, g.findings = [] := by
    rwa [overloadFindings, flatMap_eq_nil_iff] at haccepted
  cases m with
  | module body =>
    have hall : ∀ n ∈ body, n.Everywhere fun n => n.decorators = [] := hnone.of_mem_body rfl
    refine ⟨dispatched_decorateAll (fun g hg => hfindings g (mem_append_left _ hg)) hall, fun c hc => ?_⟩
    change c ∈ allHeldClasses (decorateBody (decorateAll body)) at hc
    rw [allHeldClasses_decorateBody] at hc
    obtain ⟨body', heq, hall', hgroups⟩ := exists_of_mem_heldClasses (.module body) hnone c hc
    rw [heq]
    exact dispatched_decorateAll (fun g hg => hfindings g (mem_append_right _ (hgroups g hg))) hall'
  | _ =>
    refine ⟨fun name hname => ?_, fun c hc => ?_⟩
    · cases hname
    · cases hc

def overloadedSource : String :=
  "def f(a: int) \x7b\n\x7d\ndef f(a: str) \x7b\n\x7d\n" ++
    "class C \x7b\ndef m() \x7b\n\x7d\ndef m(a: int) \x7b\n\x7d\n\x7d\n"

/-- Two functions and two methods. -/
theorem overloads_dispatched_both : ∃ tokens m, tokenize overloadedSource = .ok tokens ∧ parseTokens tokens = .ok m ∧
    (allHeldClasses m.decorated.statements).length = 1 ∧
    Dispatched m.decorated.statements ∧ ∀ c ∈ allHeldClasses m.decorated.statements, Dispatched c.2 := by
  obtain ⟨tokens, m, htokens, hm, haccepted, hheld⟩ : ∃ tokens m, tokenize overloadedSource = .ok tokens ∧
      parseTokens tokens = .ok m ∧ m.overloadFindings.isEmpty ∧
        (allHeldClasses m.decorated.statements).length = 1 := exists_parsed (by decide +kernel)
  exact ⟨tokens, m, htokens, hm, hheld, overloads_dispatched hm (isEmpty_iff.1 haccepted)⟩

/-- An accepted program: the functions of a data class have no decorators, a receiver that is written as a parameter is
dispatched on, and two functions have one decorator, since `any` is written as `object`. -/
theorem exists_overloads_not_dispatched :
    ∃ source tokens m, tokenize source = .ok tokens ∧ parseTokens tokens = .ok m ∧ m.overloadFindings.isEmpty ∧
      (m.decorated.statements.flatMap fun n => (n.body?.getD []).map decorators) =
        [[], [], ["@dispatch(object, int)"], ["@dispatch(object, str)"]] ∧
      m.decorated.statements.map decorators = [[], [], ["@dispatch(object)"], ["@dispatch(object)"]] := by
  exact ⟨"data class P(x: int) \x7b\ndef m(a: int) \x7b\n\x7d\ndef m(a: str) \x7b\n\x7d\n\x7d\n" ++
    "class C \x7b\ndef k(self, a: int) \x7b\n\x7d\ndef k(self, a: str) \x7b\n\x7d\n\x7d\n" ++
    "def f(a) \x7b\n\x7d\ndef f(a: object) \x7b\n\x7d\n",
    exists_parsed (by decide +kernel)⟩

end BraceLang
