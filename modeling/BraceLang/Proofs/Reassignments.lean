import BraceLang.Proofs.DecoratedAnalysis
import BraceLang.Proofs.FinalVisits
import BraceLang.Proofs.ProgramText

/-!
# Assignments to finals

An assignment outside of conditionals and switches is reported if a final of its name is declared before it, in
whatever function or class: the second round through a body makes its finals known at the top level
(`run_reports_assigned_finals`).
-/

namespace BraceLang

open List Node FinalCheck

open List (sublist_append_iff singleton_sublist sublist_map_iff cons_sublist_iff)

variable {name round scope : String} {p : Position} {W : TokenKind → String → Prop} {n m : Node} {α : Type}
  {vs seen : List FinalVisit} {as : List FinalAction}

/-! ### One before the other -/

theorem pair_sublist_append {xs ys : List α} :
    [a, b].Sublist (xs ++ ys) ↔ [a, b].Sublist xs ∨ (a ∈ xs ∧ b ∈ ys) ∨ [a, b].Sublist ys := by
  constructor
  · intro h
    obtain ⟨left, right, heq, hleft, hright⟩ := sublist_append_iff.1 h
    -- the two elements fall into the first list, into both, or into the second
    rcases left with _ | ⟨c, _ | ⟨d, left⟩⟩
    · exact .inr (.inr (by simpa using heq ▸ hright))
    · cases heq
      exact .inr (.inl ⟨singleton_sublist.1 hleft, singleton_sublist.1 hright⟩)
    · have hnil : left = [] ∧ right = [] := by simpa using congrArg List.length heq
      obtain ⟨rfl, rfl⟩ := hnil
      cases heq
      exact .inl hleft
  · rintro (h | ⟨ha, hb⟩ | h)
    · exact h.trans (sublist_append_left xs ys)
    · exact (singleton_sublist.2 ha).append (singleton_sublist.2 hb)
    · exact h.trans (sublist_append_right xs ys)

theorem pair_sublist_iff {l : List α} : [a, b].Sublist l ↔ ∃ before after, l = before ++ b :: after ∧ a ∈ before := by
  constructor
  · intro h
    obtain ⟨front, back, rfl, ha, hb⟩ := cons_sublist_iff.1 h
    obtain ⟨middle, after, rfl⟩ := mem_iff_append.1 (singleton_sublist.1 hb)
    exact ⟨front ++ middle, after, (List.append_assoc ..).symm, mem_append_left _ ha⟩
  · rintro ⟨before, after, rfl, ha⟩
    exact (singleton_sublist.2 ha).append (singleton_sublist.2 mem_cons_self)

/-- A declaration of the name is met before the assignment, in the same scope or at the top level. -/
def Caught (name : String) (p : Position) (vs : List FinalVisit) : Prop :=
  ∃ scope scope', (scope = scope' ∨ scope = "global") ∧
    [⟨scope, .declares name⟩, ⟨scope', .assigns name p⟩].Sublist vs

section

theorem mem_finalReports_iff : ⟨.reassigned name, p⟩ ∈ finalReports vs ↔ Caught name p vs := by
  rw [finalReports, mem_reportsAfter_iff]
  constructor
  · rintro ⟨before, ⟨scope, action⟩, after, rfl, hreport⟩
    cases action with
    | declares => cases hreport
    | assigns other q =>
      rw [FinalVisit.report?] at hreport
      split at hreport
      · next hseen =>
        cases hreport
        rcases hseen with hseen | hseen
        · exact ⟨scope, scope, .inl rfl, pair_sublist_iff.2 ⟨before, after, rfl, hseen⟩⟩
        · exact ⟨"global", scope, .inr rfl, pair_sublist_iff.2 ⟨before, after, rfl, hseen⟩⟩
      · cases hreport
  · rintro ⟨scope, scope', hscope, hpair⟩
    obtain ⟨before, after, rfl, hseen⟩ := pair_sublist_iff.1 hpair
    refine ⟨before, _, after, rfl, if_pos ?_⟩
    rcases hscope with rfl | rfl
    · exact .inl hseen
    · exact .inr hseen

theorem not_caught_nil : ¬ Caught name p [] := by
  rintro ⟨_, _, _, hpair⟩
  cases hpair

/-- A declaration in the first visits is in force for an assignment in the second. -/
def Crosses (name : String) (p : Position) (vs ws : List FinalVisit) : Prop :=
  ∃ scope scope', (scope = scope' ∨ scope = "global") ∧
    ⟨scope, .declares name⟩ ∈ vs ∧ ⟨scope', .assigns name p⟩ ∈ ws

theorem caught_append : Caught name p (vs ++ ws) ↔ Caught name p vs ∨ Crosses name p vs ws ∨ Caught name p ws := by
  constructor
  · rintro ⟨scope, scope', hscope, hpair⟩
    rcases pair_sublist_append.1 hpair with h | h | h
    · exact .inl ⟨scope, scope', hscope, h⟩
    · exact .inr (.inl ⟨scope, scope', hscope, h⟩)
    · exact .inr (.inr ⟨scope, scope', hscope, h⟩)
  · rintro (⟨scope, scope', hscope, h⟩ | ⟨scope, scope', hscope, h⟩ | ⟨scope, scope', hscope, h⟩)
    · exact ⟨scope, scope', hscope, pair_sublist_append.2 (.inl h)⟩
    · exact ⟨scope, scope', hscope, pair_sublist_append.2 (.inr (.inl h))⟩
    · exact ⟨scope, scope', hscope, pair_sublist_append.2 (.inr (.inr h))⟩

theorem caught_map_iff :
    Caught name p (as.map (FinalVisit.mk scope)) ↔ [.declares name, .assigns name p].Sublist as := by
  constructor
  · rintro ⟨_, _, _, hpair⟩
    obtain ⟨pair, hsub, heq⟩ := sublist_map_iff.1 hpair
    rcases pair with _ | ⟨a, _ | ⟨b, _ | ⟨c, rest⟩⟩⟩ <;> cases heq
    exact hsub
  · exact fun h => ⟨scope, scope, .inl rfl, h.map _⟩

end

/-! ### Rounds -/

/-- Two lists of the same actions, in which the same assignments come after the same declarations. -/
structure Alike (as bs : List FinalAction) : Prop where
  mem : ∀ a, a ∈ as ↔ a ∈ bs
  pair : ∀ name other p, [.declares name, .assigns other p].Sublist as ↔ [.declares name, .assigns other p].Sublist bs

namespace Alike

theorem refl (as : List FinalAction) : Alike as as := ⟨fun _ => Iff.rfl, fun _ _ _ => Iff.rfl⟩

theorem append (h : Alike as bs) (h' : Alike as' bs') : Alike (as ++ as') (bs ++ bs') :=
  ⟨fun a => by rw [mem_append, mem_append, h.mem, h'.mem],
    fun name other p => by rw [pair_sublist_append, pair_sublist_append, h.pair, h'.pair, h.mem, h'.mem]⟩

theorem of_mem_iff (h : ∀ a, a ∈ as ↔ a ∈ bs) (hnone : ∀ name, .declares name ∉ as) : Alike as bs := by
  refine ⟨h, fun name other p => ⟨fun hpair => ?_, fun hpair => ?_⟩⟩
  · exact absurd (hpair.subset mem_cons_self) (hnone name)
  · exact absurd ((h _).2 (hpair.subset mem_cons_self)) (hnone name)

end Alike

namespace Node

/-- The scopes in which the check goes through a statement, one after the other. -/
def rounds (scope : String) : Node → List String
  | function h .. => [h.name, scope]
  | _ => [scope]

/-- The check goes through the node once, and meets its actions there. -/
def Replays (n : Node) : Prop :=
  ∃ as, Alike (n.finalActions false) as ∧ ∀ scope, n.finalVisits scope = as.map (FinalVisit.mk scope)

variable {a : FinalAction} {ns : List Node}

theorem exists_allReplay (h : ∀ n ∈ ns, n.Replays) :
    ∃ as, Alike (allFinalActions false ns) as ∧ ∀ scope, allFinalVisits scope ns = as.map (FinalVisit.mk scope) := by
  induction ns with
  | nil => exact ⟨[], .refl [], fun _ => rfl⟩
  | cons n ns ih =>
    obtain ⟨hn, hns⟩ := forall_mem_cons.1 h
    obtain ⟨as, halike, hvisits⟩ := hn
    obtain ⟨bs, halike', hvisits'⟩ := ih hns
    refine ⟨as ++ bs, halike.append halike', fun scope => ?_⟩
    rw [allFinalVisits, hvisits, hvisits', map_append]

end Node

section

theorem alike_assigned {value : Node} (h : value.Everywhere fun m => m.isAnnotationUse = false) :
    Alike (value.walk.filterMap assigning?) (value.assignedNames.map fun a => .assigns a.1 a.2) := by
  refine .of_mem_iff (fun a => ?_) fun name hmem => ?_
  · rw [mem_filterMap, mem_map]
    constructor
    · rintro ⟨k, hk, ha⟩
      unfold assigning? at ha
      split at ha
      · cases ha
        exact ⟨_, mem_assignedNames h hk, rfl⟩
      · cases ha
    · rintro ⟨⟨name, p⟩, hmem, rfl⟩
      obtain ⟨target, operator, type, hk⟩ := exists_mem_walk_of_mem_assignedNames hmem
      exact ⟨_, hk, rfl⟩
  · obtain ⟨k, _, ha⟩ := mem_filterMap.1 hmem
    unfold assigning? at ha
    split at ha <;> cases ha

theorem Fits.replays (h : Fits W role n) (hrole : role = .statement) : n.Replays := by
  induction h with
  | expressionStatement h | declaration h => exact ⟨_, alike_assigned (h.annotationFree rfl),
      fun _ => List.map_map.symm⟩
  | @finalDecl target =>
    cases target with
    | identifier => exact ⟨_, .refl _, fun _ => rfl⟩
    | _ => exact ⟨[], .refl [], fun _ => rfl⟩
  | forLoop _ _ _ ih | whileLoop _ _ _ ih => exact exists_allReplay fun n hn => ih n hn rfl
  | pass | returns | raises | imports | conditional | switch => exact ⟨[], .refl [], fun _ => rfl⟩
  | _ => cases hrole

theorem Fits.rounds_statement (h : Fits W .statement n) (scope : String) : n.rounds scope = [scope] := by
  cases h <;> rfl

theorem Fits.exists_rounds (h : Fits W .member n) : ∃ as, Alike (n.finalActions false) as ∧
    ∀ scope, n.finalVisits scope = (n.rounds scope).flatMap fun round => as.map (FinalVisit.mk round) := by
  cases h with
  | @function head _ _ _ _ _ _ _ hbody =>
    obtain ⟨as, halike, hvisits⟩ := exists_allReplay fun n hn => (hbody n hn).replays rfl
    refine ⟨as, halike, fun scope => ?_⟩
    rw [finalVisits, hvisits, hvisits]
    simp [rounds]
  | plainMember h =>
    obtain ⟨as, halike, hvisits⟩ := h.replays rfl
    refine ⟨as, halike, fun scope => ?_⟩
    rw [h.rounds_statement, hvisits]
    simp

theorem Fits.mem_finalVisits_iff (h : Fits W .member n) :
    ⟨round, a⟩ ∈ n.finalVisits scope ↔ round ∈ n.rounds scope ∧ a ∈ n.finalActions false := by
  obtain ⟨as, halike, hvisits⟩ := h.exists_rounds
  rw [hvisits, halike.mem]
  simp [mem_flatMap]

theorem Node.mem_rounds_self (n : Node) (scope : String) : scope ∈ n.rounds scope := by
  unfold rounds
  split <;> simp

end

/-! ### What is reported -/

namespace Node

/-- The second round through a function finds the finals of the first. -/
def Overlaps (scope : String) : Node → Prop
  | function h .. => h.name = scope ∨ h.name = "global"
  | _ => False

def Holds (name : String) (p : Position) (n : Node) : Prop :=
  .declares name ∈ n.finalActions false ∧ .assigns name p ∈ n.finalActions false

/-- The assignment is met in a round that comes after one in which the final is declared in a scope of the same name,
wherever the two stand: in a function that is called like the top level, or in the statements of a class, all of which
are gone through again when the first rounds through them have ended. -/
inductive Revisits (name : String) (p : Position) : Node → Prop
  | function {head : FunctionHead} {params body typeParams annotations : List Node} (hhead : head.name = "global")
      (h : Holds name p (function head params (some body) typeParams annotations)) :
      Revisits name p (function head params (some body) typeParams annotations)
  | classDecl {head : ClassHead} {body params annotations : List Node} {declaring assigning : Node} {scope : String}
      (hdeclaring : declaring ∈ body) (hassigning : assigning ∈ body)
      (hdeclares : .declares name ∈ declaring.finalActions false)
      (hassigns : .assigns name p ∈ assigning.finalActions false) (hfirst : scope ∈ declaring.rounds head.name)
      (hsecond : scope ∈ assigning.rounds "global") : Revisits name p (classDecl head body params annotations)
  | dataClass {title : String} {fields body params annotations : List Node} {bases : List String} {q : Position}
      {n : Node} (hn : n ∈ body) (h : Revisits name p n) :
      Revisits name p (dataClass title fields body params bases annotations q)
  | enumDecl {title : String} {members body annotations : List Node} {q : Position} {n : Node} (hn : n ∈ body)
      (h : Revisits name p n) : Revisits name p (enumDecl title members body annotations q)

end Node

section

theorem Fits.caught_iff (h : Fits W .member n) : Caught name p (n.finalVisits scope) ↔
    [.declares name, .assigns name p].Sublist (n.finalActions false) ∨ n.Holds name p ∧ n.Overlaps scope := by
  obtain ⟨as, halike, hvisits⟩ := h.exists_rounds
  rw [hvisits, halike.pair, Holds, halike.mem, halike.mem]
  cases h with
  | @function head =>
    have hcross : Crosses name p (as.map (FinalVisit.mk head.name)) (as.map (FinalVisit.mk scope)) ↔
        (.declares name ∈ as ∧ .assigns name p ∈ as) ∧ (head.name = scope ∨ head.name = "global") := by
      simp only [Crosses, mem_map, FinalVisit.mk.injEq]
      constructor
      · rintro ⟨_, _, hscope, ⟨_, hd, rfl, rfl⟩, ⟨_, ha, rfl, rfl⟩⟩
        exact ⟨⟨hd, ha⟩, hscope⟩
      · rintro ⟨⟨hd, ha⟩, hscope⟩
        exact ⟨_, _, hscope, ⟨_, hd, rfl, rfl⟩, ⟨_, ha, rfl, rfl⟩⟩
    rw [rounds, flatMap_cons, flatMap_cons, flatMap_nil, append_nil, caught_append, hcross,
      caught_map_iff, caught_map_iff, Overlaps]
    constructor
    · rintro (hpair | hagain | hpair)
      · exact .inl hpair
      · exact .inr hagain
      · exact .inl hpair
    · rintro (hpair | hagain)
      · exact .inl hpair
      · exact .inr (.inl hagain)
  | plainMember h =>
    have hnone : ¬ n.Overlaps scope := by cases h <;> exact id
    rw [h.rounds_statement, flatMap_cons, flatMap_nil, append_nil, caught_map_iff]
    exact (or_iff_left fun hagain => hnone hagain.2).symm

/-- What is reported on one way through statements: what is reported in one of them, and what is assigned in one after
being declared in another before it. -/
theorem caught_flatMap_iff {Again : Node → Prop}
    (hactions : ∀ n ∈ ns, ∀ round a, ⟨round, a⟩ ∈ n.finalVisits scope → a ∈ n.finalActions false)
    (hvisits : ∀ n ∈ ns, ∀ a ∈ n.finalActions false, ⟨scope, a⟩ ∈ n.finalVisits scope)
    (hn : ∀ n ∈ ns, Caught name p (n.finalVisits scope) ↔
      [.declares name, .assigns name p].Sublist (n.finalActions false) ∨ Again n) :
    Caught name p (allFinalVisits scope ns) ↔
      [.declares name, .assigns name p].Sublist (allFinalActions false ns) ∨ ∃ n ∈ ns, Again n := by
  rw [allFinalVisits_eq, allFinalActions_eq]
  induction ns with
  | nil => simpa using not_caught_nil
  | cons m ms ih =>
    obtain ⟨hactions, hactions'⟩ := forall_mem_cons.1 hactions
    obtain ⟨hvisits, hvisits'⟩ := forall_mem_cons.1 hvisits
    obtain ⟨hm, hms⟩ := forall_mem_cons.1 hn
    have hcross : Crosses name p (m.finalVisits scope) (ms.flatMap (finalVisits scope)) ↔
        .declares name ∈ m.finalActions false ∧ .assigns name p ∈ ms.flatMap (finalActions false) := by
      constructor
      · rintro ⟨_, _, _, hd, ha⟩
        obtain ⟨k, hk, ha⟩ := mem_flatMap.1 ha
        exact ⟨hactions _ _ hd, mem_flatMap.2 ⟨k, hk, hactions' k hk _ _ ha⟩⟩
      · rintro ⟨hd, ha⟩
        obtain ⟨k, hk, ha⟩ := mem_flatMap.1 ha
        exact ⟨scope, scope, .inl rfl, hvisits _ hd, mem_flatMap.2 ⟨k, hk, hvisits' k hk _ ha⟩⟩
    rw [flatMap_cons, flatMap_cons, caught_append, pair_sublist_append, hcross, hm,
      ih hactions' hvisits' hms, exists_mem_cons_iff]
    constructor
    · rintro ((hpair | hagain) | hboth | hpair | hagain)
      · exact .inl (.inl hpair)
      · exact .inr (.inl hagain)
      · exact .inl (.inr (.inl hboth))
      · exact .inl (.inr (.inr hpair))
      · exact .inr (.inr hagain)
    · rintro ((hpair | hboth | hpair) | hagain | hagain)
      · exact .inl (.inl hpair)
      · exact .inr (.inl hboth)
      · exact .inr (.inr (.inl hpair))
      · exact .inl (.inr hagain)
      · exact .inr (.inr (.inr hagain))

theorem caught_members_iff (hns : ∀ n ∈ ns, Fits W .member n) :
    Caught name p (allFinalVisits scope ns) ↔ [.declares name, .assigns name p].Sublist (allFinalActions false ns) ∨
      ∃ n ∈ ns, n.Holds name p ∧ n.Overlaps scope :=
  caught_flatMap_iff (fun n hn _ _ hv => ((hns n hn).mem_finalVisits_iff.1 hv).2)
    (fun n hn _ ha => (hns n hn).mem_finalVisits_iff.2 ⟨n.mem_rounds_self scope, ha⟩) fun n hn => (hns n hn).caught_iff

theorem mem_memberVisits_iff (hns : ∀ n ∈ ns, Fits W .member n) :
    ⟨round, a⟩ ∈ allFinalVisits scope ns ↔ ∃ n ∈ ns, round ∈ n.rounds scope ∧ a ∈ n.finalActions false := by
  rw [allFinalVisits_eq, mem_flatMap]
  exact exists_congr fun n => and_congr_right fun hn => (hns n hn).mem_finalVisits_iff

theorem Fits.revisits_iff (h : Fits W .member n) : n.Revisits name p ↔ n.Holds name p ∧ n.Overlaps "global" := by
  cases h with
  | function =>
    constructor
    · rintro ⟨hhead, hholds⟩
      exact ⟨hholds, .inl hhead⟩
    · rintro ⟨hholds, hhead⟩
      exact .function (hhead.elim id id) hholds
  | plainMember h => cases h <;> exact ⟨nofun, fun h => h.2.elim⟩

theorem Fits.actions_of_top (h : Fits W .top n) (ha : ⟨round, a⟩ ∈ n.finalVisits "global") :
    a ∈ n.finalActions false := by
  cases h with
  | plainTop h => exact (h.mem_finalVisits_iff.1 ha).2
  | classDecl _ _ _ hbody =>
    rw [finalActions, allFinalActions_eq]
    rcases mem_append.1 ha with ha | ha
    all_goals
      obtain ⟨k, hk, _, ha⟩ := (mem_memberVisits_iff hbody).1 ha
      exact mem_flatMap.2 ⟨k, hk, ha⟩
  | dataClass _ _ hbody | enumDecl _ _ hbody =>
    obtain ⟨k, hk, _, ha⟩ := (mem_memberVisits_iff hbody).1 ha
    rw [finalActions, allFinalActions_eq]
    exact mem_flatMap.2 ⟨k, hk, ha⟩
  | interface => cases ha

theorem Fits.visits_of_top (h : Fits W .top n) (ha : a ∈ n.finalActions false) :
    ⟨"global", a⟩ ∈ n.finalVisits "global" := by
  have hmembers {body : List Node} (hbody : ∀ n ∈ body, Fits W .member n) (ha : a ∈ allFinalActions false body) :
      ⟨"global", a⟩ ∈ allFinalVisits "global" body := by
    rw [allFinalActions_eq] at ha
    obtain ⟨k, hk, ha⟩ := mem_flatMap.1 ha
    exact (mem_memberVisits_iff hbody).2 ⟨k, hk, k.mem_rounds_self _, ha⟩
  cases h with
  | plainTop h => exact h.mem_finalVisits_iff.2 ⟨n.mem_rounds_self _, ha⟩
  | classDecl _ _ _ hbody => exact mem_append_right _ (hmembers hbody ha)
  | dataClass _ _ hbody | enumDecl _ _ hbody => exact hmembers hbody ha
  | interface => cases ha

theorem crosses_class_iff (hbody : ∀ n ∈ body, Fits W .member n) (head : ClassHead)
    (params annotations : List Node) :
    Crosses name p (allFinalVisits head.name body) (allFinalVisits "global" body) ↔
      (Node.classDecl head body params annotations).Revisits name p := by
  constructor
  · rintro ⟨scope, scope', hscope, hd, ha⟩
    obtain ⟨k, hk, hround, hdeclares⟩ := (mem_memberVisits_iff hbody).1 hd
    obtain ⟨l, hl, hround', hassigns⟩ := (mem_memberVisits_iff hbody).1 ha
    rcases hscope with rfl | rfl
    · exact .classDecl hk hl hdeclares hassigns hround hround'
    · exact .classDecl hk hl hdeclares hassigns hround (l.mem_rounds_self _)
  · rintro (_ | ⟨hk, hl, hd, ha, hround, hround'⟩)
    exact ⟨_, _, .inl rfl, (mem_memberVisits_iff hbody).2 ⟨_, hk, hround, hd⟩,
      (mem_memberVisits_iff hbody).2 ⟨_, hl, hround', ha⟩⟩

theorem Fits.caught_top_iff (h : Fits W .top n) : Caught name p (n.finalVisits "global") ↔
    [.declares name, .assigns name p].Sublist (n.finalActions false) ∨ n.Revisits name p := by
  have hmembers {body : List Node} (hbody : ∀ n ∈ body, Fits W .member n) :
      Caught name p (allFinalVisits "global" body) ↔
        [.declares name, .assigns name p].Sublist (allFinalActions false body) ∨ ∃ n ∈ body, n.Revisits name p := by
    rw [caught_members_iff hbody]
    exact or_congr_right (exists_congr fun n => and_congr_right fun hn => (hbody n hn).revisits_iff.symm)
  cases h with
  | plainTop h => rw [h.caught_iff, h.revisits_iff]
  | @classDecl head body params annotations _ _ _ hbody =>
    rw [finalVisits, finalActions, caught_append, caught_members_iff hbody, caught_members_iff hbody,
      crosses_class_iff hbody head params annotations]
    -- a function that overlaps with itself is one that declares and one that assigns
    have hown {scope : String} : (∃ n ∈ body, n.Holds name p ∧ n.Overlaps scope) →
        (Node.classDecl head body params annotations).Revisits name p := by
      rintro ⟨k, hk, ⟨hd, ha⟩, hoverlaps⟩
      cases k with
      | function => exact .classDecl hk hk hd ha mem_cons_self mem_cons_self
      | _ => cases hoverlaps
    constructor
    · rintro ((h | h) | h | h | h)
      · exact .inl h
      · exact .inr (hown h)
      · exact .inr h
      · exact .inl h
      · exact .inr (hown h)
    · rintro (h | h)
      · exact .inl (.inl h)
      · exact .inr (.inl h)
  | dataClass _ _ hbody =>
    rw [finalVisits, finalActions, hmembers hbody]
    refine or_congr_right ⟨fun h => ?_, ?_⟩
    · obtain ⟨k, hk, h⟩ := h
      exact .dataClass hk h
    rintro (_ | _ | ⟨hk, h⟩)
    exact ⟨_, hk, h⟩
  | enumDecl _ _ hbody =>
    rw [finalVisits, finalActions, hmembers hbody]
    refine or_congr_right ⟨fun h => ?_, ?_⟩
    · obtain ⟨k, hk, h⟩ := h
      exact .enumDecl hk h
    rintro (_ | _ | _ | ⟨hk, h⟩)
    exact ⟨_, hk, h⟩
  | interface =>
    refine iff_of_false not_caught_nil ?_
    rintro (hpair | hrevisits)
    · cases hpair
    · cases hrevisits

end

theorem mem_reportsAfter_of_mem (hseen : ⟨"global", .declares name⟩ ∈ seen) (hv : ⟨scope, .assigns name p⟩ ∈ vs) :
    ⟨.reassigned name, p⟩ ∈ reportsAfter seen vs := by
  obtain ⟨before, after, rfl⟩ := mem_iff_append.1 hv
  exact mem_reportsAfter_iff.2 ⟨before, _, after, rfl, if_pos (.inr (mem_append_left _ hseen))⟩

namespace FinalCheck

theorem reflects_collectAll (ns : List Node) : (collectAll ns {}).Reflects [] := by
  obtain ⟨hfinals, hfindings, _⟩ := collectAll_keeps ns {}
  refine ⟨fun scope name => ?_, ?_⟩
  · -- only the top level is a scope from the start, and it has no finals
    rw [isFinalIn_iff, hfinals]
    constructor
    · rintro ⟨names, hnames, hname⟩
      rw [NameMap.get?, lookup_cons] at hnames
      split at hnames
      · cases hnames
        cases hname
      · cases hnames
    · intro hmem
      cases hmem
  · rw [hfindings]
    rfl

theorem exists_run_reflects (h : Fits W .program m) : ∃ s, run m = .ok s ∧ s.Reflects (m.finalVisits "global") := by
  cases h with
  | @module body hbody =>
    obtain ⟨s, hs⟩ := exists_visitAll (fun n hn => (hbody n hn).passes) (collectAll body {})
    have hreflects := reflects_visitAll body hs (reflects_collectAll body)
    rw [(collectAll_keeps body {}).2.2] at hreflects
    exact ⟨s, hs, hreflects⟩

theorem Reflects.mem_findings_iff {s : FinalCheck} (h : s.Reflects seen) :
    ⟨.reassigned name, p⟩ ∈ s.findings ↔ Caught name p seen := by
  rw [← mem_finalReports_iff, ← h.reports, mem_filter]
  exact (and_iff_left rfl).symm

end FinalCheck

section

theorem Fits.caught_program_iff (h : Fits W .program m) : Caught name p (m.finalVisits "global") ↔
    [.declares name, .assigns name p].Sublist (m.finalActions false) ∨ ∃ n ∈ m.statements, n.Revisits name p := by
  cases h with
  | module hbody =>
    exact caught_flatMap_iff (fun n hn _ _ => (hbody n hn).actions_of_top) (fun n hn _ => (hbody n hn).visits_of_top)
      fun n hn => (hbody n hn).caught_top_iff

theorem Fits.actions_of_program (h : Fits W .program m) (ha : ⟨round, a⟩ ∈ m.finalVisits "global") :
    a ∈ m.finalActions false := by
  cases h with
  | module hbody =>
    rw [finalVisits, allFinalVisits_eq] at ha
    rw [finalActions, allFinalActions_eq]
    obtain ⟨n, hn, ha⟩ := mem_flatMap.1 ha
    exact mem_flatMap.2 ⟨n, hn, (hbody n hn).actions_of_top ha⟩

/-- The statements of functions and classes are gone through twice. -/
def Node.isTwofold : Node → Bool
  | function .. | classDecl .. => true
  | _ => false

theorem Fits.exists_parts (h : Fits W .top n) (hn : n.isTwofold)
    (ha : a ∈ n.finalActions false) : ∃ first second, n.finalVisits "global" = first ++ second ∧
      (∃ scope, ⟨scope, a⟩ ∈ first) ∧ ∃ scope, ⟨scope, a⟩ ∈ second := by
  cases h with
  | plainTop h =>
    cases h with
    | @function head body _ _ _ _ _ _ hbody =>
      obtain ⟨as, halike, hvisits⟩ := exists_allReplay fun n hn => (hbody n hn).replays rfl
      have hmem (scope : String) : ⟨scope, a⟩ ∈ allFinalVisits scope _ :=
        hvisits scope ▸ mem_map_of_mem ((halike.mem a).1 ha)
      exact ⟨_, _, rfl, ⟨_, hmem head.name⟩, ⟨_, hmem "global"⟩⟩
    | plainMember h => cases h <;> cases hn
  | @classDecl head body _ _ _ _ _ hbody =>
    rw [finalActions, allFinalActions_eq] at ha
    obtain ⟨k, hk, ha⟩ := mem_flatMap.1 ha
    have hmem (scope : String) : ⟨scope, a⟩ ∈ allFinalVisits scope body :=
      (mem_memberVisits_iff hbody).2 ⟨k, hk, k.mem_rounds_self scope, ha⟩
    exact ⟨_, _, rfl, ⟨_, hmem head.name⟩, ⟨_, hmem "global"⟩⟩
  | _ => cases hn

theorem Fits.two_le_count (h : Fits W .program m) {before after : List Node} (hm : m.statements = before ++ n :: after)
    (hn : n.isTwofold)
    (hd : .declares name ∈ allFinalActions false before) (ha : .assigns name p ∈ n.finalActions false) :
    2 ≤ (finalReports (m.finalVisits "global")).count ⟨.reassigned name, p⟩ := by
  cases h with
  | @module body hbody =>
    obtain rfl : body = before ++ n :: after := hm
    obtain ⟨hbefore, hrest⟩ := forall_mem_append.1 hbody
    obtain ⟨hfits, _⟩ := forall_mem_cons.1 hrest
    have hseen : ⟨"global", .declares name⟩ ∈ allFinalVisits "global" before := by
      rw [allFinalActions_eq] at hd
      obtain ⟨k, hk, hd⟩ := mem_flatMap.1 hd
      rw [allFinalVisits_eq]
      exact mem_flatMap.2 ⟨k, hk, (hbefore k hk).visits_of_top hd⟩
    obtain ⟨first, second, hvisits, ⟨_, hfirst⟩, ⟨_, hsecond⟩⟩ := hfits.exists_parts hn ha
    have hall : (Node.module (before ++ n :: after)).finalVisits "global" =
        allFinalVisits "global" before ++ (first ++ (second ++ allFinalVisits "global" after)) := by
      simp only [finalVisits, allFinalVisits_eq, flatMap_append, flatMap_cons, hvisits, List.append_assoc]
    rw [hall, finalReports_append, reportsAfter_append, reportsAfter_append, count_append, count_append,
      count_append]
    have hpos := count_pos_iff.2 (mem_reportsAfter_of_mem hseen hfirst)
    have hpos' := count_pos_iff.2 (mem_reportsAfter_of_mem (mem_append_left first hseen) hsecond)
    omega

end

/-! ### Parsed programs -/

/-- The check of a parsed program reports every assignment, outside of conditionals and switches, that comes after a
final of its name, in whatever loops, functions and classes the two stand.  What it reports is declared and assigned
outside of conditionals and switches. -/
theorem run_reports_assigned_finals {tokens : List Token} {m : Node} (hm : parseTokens tokens = .ok m) :
    ∃ s, FinalCheck.run m = .ok s ∧
      (∀ name p, [.declares name, .assigns name p].Sublist (m.finalActions false) →
        ⟨.reassigned name, p⟩ ∈ s.findings) ∧
      ∀ name p, ⟨.reassigned name, p⟩ ∈ s.findings →
        .declares name ∈ m.finalActions false ∧ .assigns name p ∈ m.finalActions false := by
  have hfits : Fits (fun _ _ => True) .program m := parseTokens_fits (fun _ _ => trivial) hm
  obtain ⟨s, hs, hreflects⟩ := exists_run_reflects hfits
  refine ⟨s, hs, fun name p hpair => ?_, fun name p hfound => ?_⟩
  · rw [hreflects.mem_findings_iff, hfits.caught_program_iff]
    exact .inl hpair
  · obtain ⟨scope, scope', _, hpair⟩ := hreflects.mem_findings_iff.1 hfound
    exact ⟨hfits.actions_of_program (hpair.subset List.mem_cons_self),
      hfits.actions_of_program (hpair.subset (.tail _ (.head _)))⟩

def loopSource : String :=
  "final limit: int = 1;\ndef f(a) \x7b\n    while a \x7b\n        limit = a;\n    \x7d\n\x7d\n"

theorem run_reports_assigned_finals_loop : ∃ (tokens : List Token) (m : Node) (s : FinalCheck),
    tokenize loopSource = .ok tokens ∧ parseTokens tokens = .ok m ∧
    [.declares "limit", .assigns "limit" ⟨4, 14⟩].Sublist (m.finalActions false) ∧ FinalCheck.run m = .ok s ∧
    ⟨.reassigned "limit", ⟨4, 14⟩⟩ ∈ s.findings := by
  obtain ⟨tokens, m, htokens, hm, hpair⟩ :
      ∃ tokens m, tokenize loopSource = .ok tokens ∧ parseTokens tokens = .ok m ∧
        [.declares "limit", .assigns "limit" ⟨4, 14⟩].Sublist (m.finalActions false) :=
          exists_parsed (by decide +kernel)
  obtain ⟨s, hs, hfound, _⟩ := run_reports_assigned_finals hm
  exact ⟨tokens, m, s, htokens, hm, hpair, hs, hfound _ _ hpair⟩

theorem exists_of_found (h : ((FinalCheck.run m).toOption.any fun s => s.findings = fs)) :
    ∃ s, FinalCheck.run m = .ok s ∧ s.findings = fs := by
  obtain ⟨s, hrun, hs⟩ := (Option.any_eq_true _ _).1 h
  exact ⟨s, eq_ok_of_toOption hrun, of_decide_eq_true hs⟩

/-- A final is assigned in a conditional behind its declaration, and nothing is reported. -/
theorem exists_final_reassigned_in_branch :
    ∃ (source : String) (tokens : List Token) (m : Node) (s : FinalCheck) (name : String) (p : Position),
      tokenize source = .ok tokens ∧ parseTokens tokens = .ok m ∧
      [.declares name, .assigns name p].Sublist (m.finalActions true) ∧ FinalCheck.run m = .ok s ∧
      s.findings = [] := by
  obtain ⟨tokens, m, htokens, hm, hpair, hfound⟩ :
      ∃ tokens m, tokenize
          "def f(a) \x7b\n    final x: int = 1;\n    if a \x7b\n        x = 2;\n    \x7d\n\x7d\n" = .ok tokens ∧
        parseTokens tokens = .ok m ∧ [.declares "x", .assigns "x" ⟨4, 10⟩].Sublist (m.finalActions true) ∧
        ((FinalCheck.run m).toOption.any fun s => s.findings = []) := exists_parsed (by decide +kernel)
  obtain ⟨s, hs, hnone⟩ := exists_of_found hfound
  exact ⟨_, tokens, m, s, _, _, htokens, hm, hpair, hs, hnone⟩

/-- The reports of the check of a parsed program are those of its visits, in their order and as often as they come.
Hence an assignment is reported if and only if a final of its name is declared before it, in whatever function or class,
or it is met again in a scope of the same name; and after a final of its name, an assignment in a function or class is
reported at least twice. -/
theorem run_reports_exactly {tokens : List Token} {m : Node} (hm : parseTokens tokens = .ok m) :
    ∃ s, FinalCheck.run m = .ok s ∧
      s.findings.filter Finding.isReassignment = finalReports (m.finalVisits "global") ∧
      (∀ name p, ⟨.reassigned name, p⟩ ∈ s.findings ↔
        [.declares name, .assigns name p].Sublist (m.finalActions false) ∨ ∃ n ∈ m.statements, n.Revisits name p) ∧
      ∀ before n after name p, m.statements = before ++ n :: after → n.isTwofold →
        .declares name ∈ allFinalActions false before → .assigns name p ∈ n.finalActions false →
        2 ≤ s.findings.count ⟨.reassigned name, p⟩ := by
  have hfits : Fits (fun _ _ => True) .program m := parseTokens_fits (fun _ _ => trivial) hm
  obtain ⟨s, hs, hreflects⟩ := exists_run_reflects hfits
  refine ⟨s, hs, hreflects.reports, fun name p => ?_, fun before n after name p hsplit hn hd ha => ?_⟩
  · rw [hreflects.mem_findings_iff, hfits.caught_program_iff]
  · have hcount := hfits.two_le_count hsplit hn hd ha
    rw [← hreflects.reports] at hcount
    exact hcount.trans (List.filter_sublist.count_le _)

def functionSource : String := "final limit: int = 1;\ndef f(a) \x7b\n    limit = a;\n\x7d\n"

theorem run_reports_exactly_function : ∃ (tokens : List Token) (m : Node) (s : FinalCheck),
    tokenize functionSource = .ok tokens ∧ parseTokens tokens = .ok m ∧ FinalCheck.run m = .ok s ∧
    s.findings.filter Finding.isReassignment = finalReports (m.finalVisits "global") ∧
    2 ≤ s.findings.count ⟨.reassigned "limit", ⟨3, 10⟩⟩ := by
  obtain ⟨tokens, m, htokens, hm, hn, hd, ha⟩ :
      ∃ tokens m, tokenize functionSource = .ok tokens ∧ parseTokens tokens = .ok m ∧
        (m.statements.drop 1).map isTwofold = [true] ∧
        .declares "limit" ∈ allFinalActions false (m.statements.take 1) ∧
        .assigns "limit" ⟨3, 10⟩ ∈ allFinalActions false (m.statements.drop 1) := exists_parsed (by decide +kernel)
  obtain ⟨s, hs, hreports, _, htwice⟩ := run_reports_exactly hm
  obtain ⟨n, hrest, hn⟩ := List.map_eq_singleton_iff.1 hn
  have hsplit : m.statements = m.statements.take 1 ++ n :: [] := by rw [← hrest, List.take_append_drop]
  rw [hrest, allFinalActions, allFinalActions, List.append_nil] at ha
  exact ⟨tokens, m, s, htokens, hm, hs, hreports, htwice _ n [] _ _ hsplit hn hd ha⟩

/-- A final of one function makes the assignment in another one an error, which is reported twice. -/
theorem exists_final_reported_elsewhere :
    ∃ (source : String) (tokens : List Token) (m f g : Node) (s : FinalCheck) (name : String) (p : Position),
      tokenize source = .ok tokens ∧ parseTokens tokens = .ok m ∧ m.statements = [f, g] ∧
      f.isFunction ∧ g.isFunction ∧ f.finalActions true = [.declares name] ∧
      g.finalActions true = [.assigns name p] ∧ FinalCheck.run m = .ok s ∧
      s.findings = [⟨.reassigned name, p⟩, ⟨.reassigned name, p⟩] := by
  let p : Position := ⟨5, 6⟩
  obtain ⟨tokens, m, htokens, hm, hkinds, hactions, hfound⟩ :
      ∃ tokens m, tokenize "def f() \x7b\n    final x: int = 1;\n\x7d\ndef g() \x7b\n    x = 2;\n\x7d\n" = .ok tokens ∧
        parseTokens tokens = .ok m ∧ m.statements.map isFunction = [true, true] ∧
        m.statements.map (finalActions true) = [[.declares "x"], [.assigns "x" p]] ∧
        ((FinalCheck.run m).toOption.any fun s => s.findings = [⟨.reassigned "x", p⟩, ⟨.reassigned "x", p⟩]) :=
    exists_parsed (by decide +kernel)
  obtain ⟨f, rest, hm', hf, hrest⟩ := List.map_eq_cons_iff.1 hkinds
  obtain ⟨g, rfl, hg⟩ := List.map_eq_singleton_iff.1 hrest
  obtain ⟨s, hs, hreports⟩ := exists_of_found hfound
  rw [hm'] at hactions
  injection hactions with hactions hactions'
  injection hactions' with hactions' _
  exact ⟨_, tokens, m, f, g, s, _, _, htokens, hm, hm', hf, hg, hactions, hactions', hs, hreports⟩

end BraceLang
