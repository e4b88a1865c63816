import BraceLang.Proofs.TableOutline

/-!
# What the check of one expression reads and leaves

The check of types keeps the bindings of every receiver from one expression to the next.
-/

namespace BraceLang

open List NameMap

namespace Node

def checkedCall? : Node → Option (Node × List Node)
  | call callee arguments => some (callee, arguments)
  | assignment _ (call callee arguments) _ none _ => some (callee, arguments)
  | _ => none

def receiverName? : Node → Option String
  | member (identifier name) _ => some name
  | _ => none

/-- The name of the receiver of the call that is checked in an expression statement. -/
def receiver? (n : Node) : Option String := n.checkedCall?.bind fun c => c.1.receiverName?

end Node

open Node

namespace SymbolTable

variable (t : SymbolTable) (scope : String)

def ownerParameters (owner : Option String) : List String :=
  ((owner.bind (get? t.classes)).map (·.typeParameters)).getD []

/-- What a call adds, with the bindings of its receiver known: findings and new bindings. -/
def callOutcome (callee : Node) (arguments : List Node) (known : Bindings) : List Finding × Bindings :=
  match t.callee? scope callee with
  | none => ([], [])
  | some c =>
    let args := arguments.map (t.typeOf scope)
    match c.functions with
    | [] => ([], [])
    | f :: _ =>
      match c.functions.findSome? fun f =>
          t.bindArguments (t.ownerParameters c.owner) known args (declaredTypes f.params) with
      | none => ([⟨.noOverload c.owner f.name args, {}⟩], [])
      | some new => ([], new)

def callReceiver? (callee : Node) : Option String :=
  (t.callee? scope callee).bind fun c => c.receiver.filter (!·.isEmpty)

def assignedFindings : Node → List Finding
  | .assignment target value _ none _ => (t.checkAssigned scope target value {}).findings
  | _ => []

/-- What an expression adds, with the bindings of its receiver known. -/
def outcome (n : Node) (known : Bindings) : List Finding × Bindings :=
  let o := n.checkedCall?.elim ([], []) fun c => t.callOutcome scope c.1 c.2 known
  (o.1 ++ t.assignedFindings scope n, o.2)

def boundReceiver? (n : Node) : Option String := n.checkedCall?.bind fun c => t.callReceiver? scope c.1

/-- The receiver whose bindings an expression can extend, since its class has type parameters. -/
def genericReceiver? (n : Node) : Option String :=
  n.checkedCall?.bind fun c => (t.callee? scope c.1).bind fun d =>
    if t.ownerParameters d.owner = [] then none else d.receiver

def extended (b : NameMap Bindings) (receiver : Option String) (new : Bindings) : NameMap Bindings :=
  receiver.elim b fun r =>
    if new.isEmpty then b else change r [] (fun b => new.foldl (fun b e => put e.1 e.2 b) b) b

def knownOf (b : NameMap Bindings) (receiver : Option String) : Bindings := (receiver.bind (get? b)).getD []

def after (b : NameMap Bindings) (n : Node) : NameMap Bindings :=
  extended b (t.boundReceiver? scope n) (t.outcome scope n (knownOf b (t.boundReceiver? scope n))).2

def added (b : NameMap Bindings) (n : Node) : List Finding :=
  (t.outcome scope n (knownOf b (t.boundReceiver? scope n))).1

theorem checkCall_eq_extended (callee : Node) (arguments : List Node) (s : TypeCheck) :
    t.checkCall scope callee arguments s =
      let o := t.callOutcome scope callee arguments (knownOf s.bindings (t.callReceiver? scope callee))
      ⟨extended s.bindings (t.callReceiver? scope callee) o.2, s.findings ++ o.1⟩ := by
  unfold checkCall callOutcome callReceiver? knownOf
  cases t.callee? scope callee with
  | none => simp [extended]
  | some c =>
    obtain ⟨functions, owner, receiver⟩ := c
    simp only [Option.bind_some, ownerParameters]
    -- The overloads are tried with the bindings of the receiver, which stay as they are on both sides.
    generalize receiver.filter (!·.isEmpty) = r?
    cases functions with
    | nil => cases r? <;> simp [extended]
    | cons f functions =>
      generalize findSome? _ (f :: functions) = new?
      cases new? with
      | none => cases r? <;> simp [extended]
      | some new =>
        cases r? with
        | none => simp [extended]
        | some => by_cases hempty : new.isEmpty <;> simp [extended, hempty]

/-- An expression reads the bindings of its own receiver and adds to these only. -/
theorem checkExpression_eq_after (n : Node) (s : TypeCheck) :
    t.checkExpression scope n s = ⟨t.after scope s.bindings n, s.findings ++ t.added scope s.bindings n⟩ := by
  have hassigned (target value : Node) (s : TypeCheck) : t.checkAssigned scope target value s =
      ⟨s.bindings, s.findings ++ (t.checkAssigned scope target value {}).findings⟩ := by
    unfold checkAssigned
    split
    · split
      · simp
      · simp
    · simp
  unfold checkExpression
  split
  · rw [checkCall_eq_extended]
    simp [after, added, outcome, boundReceiver?, checkedCall?, assignedFindings]
  · next target value operator p =>
    rw [hassigned]
    split
    · rw [checkCall_eq_extended]
      simp [after, added, outcome, boundReceiver?, checkedCall?, assignedFindings]
    · next hcall =>
      have hnone : (assignment target value operator none p).checkedCall? = none := by
        cases value with
        | call callee arguments => exact absurd rfl (hcall callee arguments)
        | _ => rfl
      simp [after, added, outcome, boundReceiver?, hnone, assignedFindings, extended]
  · next hcall hassignment =>
    have hnone : n.checkedCall? = none := by
      unfold checkedCall?
      split
      · exact absurd rfl (hcall _ _)
      · exact absurd rfl (hassignment _ _ _ _)
      · rfl
    have hfindings : t.assignedFindings scope n = [] := by
      unfold assignedFindings
      split
      · exact absurd rfl (hassignment _ _ _ _)
      · rfl
    simp [after, added, outcome, boundReceiver?, hnone, hfindings, extended]

/-! ### Which bindings change -/

variable {r : String} {n : Node}

theorem receiver?_of_boundReceiver? (h : t.boundReceiver? scope n = some r) : n.receiver? = some r := by
  obtain ⟨c, hc, hr⟩ := Option.bind_eq_some_iff.mp h
  obtain ⟨d, hd, hr⟩ := Option.bind_eq_some_iff.mp hr
  have hr : d.receiver = some r := (Option.filter_eq_some_iff.mp hr).1
  rw [receiver?, hc, Option.bind_some]
  unfold callee? at hd
  split at hd
  · cases hd
    cases hr
  · next object name hobject =>
    split at hd
    · split at hd
      · cases hd
        rw [hobject]
        cases object with
        | identifier => exact hr
        | _ => cases hr
      · cases hd
    · cases hd
  · cases hd

theorem bindArguments_nil (h : t.bindArguments [] known args params = some new) : new = [] := by
  have hall {known all : Bindings} (pairs : List (Option String × Option String))
      (h : t.bindAll [] known pairs = some all) : all = known := by
    induction pairs with
    | nil => exact (Option.some.inj h).symm
    | cons pair rest ih =>
      obtain ⟨_ | a, _ | p⟩ := pair
      · cases h
      · cases h
      · cases h
      · rw [bindAll, if_neg (not_mem_nil)] at h
        split at h
        · exact ih h
        · cases h
  rw [bindArguments] at h
  split at h
  · obtain ⟨all, hbind, hnew⟩ := Option.map_eq_some_iff.mp h
    rw [← hnew, hall _ hbind, filter_eq_nil_iff]
    intro b hb
    have hhas : has known b.1 := has_iff_mem_map_fst.mpr (mem_map_of_mem hb)
    simp [hhas]
  · cases h

theorem outcome_of_genericReceiver?_ne (hr : t.boundReceiver? scope n = some r)
    (h : t.genericReceiver? scope n ≠ some r) (known : Bindings) : (t.outcome scope n known).2 = [] := by
  obtain ⟨c, hc, hr⟩ := Option.bind_eq_some_iff.mp hr
  obtain ⟨d, hd, hr⟩ := Option.bind_eq_some_iff.mp hr
  have hr : d.receiver = some r := (Option.filter_eq_some_iff.mp hr).1
  have hparams : t.ownerParameters d.owner = [] := by
    by_contra hne
    simp [genericReceiver?, hc, hd, hne, hr] at h
  simp only [outcome, hc, Option.elim_some, callOutcome, hd, hparams]
  cases hfunctions : d.functions with
  | nil => rfl
  | cons f functions =>
    simp only
    split
    · rfl
    · next new hnew =>
      obtain ⟨f, -, hf⟩ := exists_of_findSome?_eq_some hnew
      exact t.bindArguments_nil hf

theorem get?_extended_of_ne (h : receiver ≠ some r) (b : NameMap Bindings) (new : Bindings) :
    get? (extended b receiver new) r = get? b r := by
  cases receiver with
  | none => rfl
  | some s =>
    have hne : r ≠ s := fun he => h (congrArg some he.symm)
    rw [extended, Option.elim_some]
    split
    · rfl
    · exact get?_put_of_ne hne _ _

theorem get?_extended_congr (h : get? b r = get? b' r) (receiver : Option String) (new : Bindings) :
    get? (extended b receiver new) r = get? (extended b' receiver new) r := by
  by_cases hr : receiver = some r
  · subst hr
    rw [extended, extended, Option.elim_some, Option.elim_some]
    split
    · exact h
    · rw [change, change, get?_put_self, get?_put_self, h]
  · rw [get?_extended_of_ne hr, get?_extended_of_ne hr, h]

theorem get?_after_of_receiver?_ne (h : n.receiver? ≠ some r) (b : NameMap Bindings) :
    get? (t.after scope b n) r = get? b r :=
  get?_extended_of_ne (fun hr => h (t.receiver?_of_boundReceiver? scope hr)) _ _

theorem get?_after_of_genericReceiver?_ne (h : t.genericReceiver? scope n ≠ some r) (b : NameMap Bindings) :
    get? (t.after scope b n) r = get? b r := by
  by_cases hr : t.boundReceiver? scope n = some r
  · rw [after, t.outcome_of_genericReceiver?_ne scope hr h, hr]
    rfl
  · exact get?_extended_of_ne hr _ _

namespace Agree

variable {t t' : SymbolTable} {scope : String} {b b' : NameMap Bindings}

theorem boundReceiver?_eq (h : Agree scope t t') (n : Node) : t.boundReceiver? scope n = t'.boundReceiver? scope n := by
  simp only [boundReceiver?, callReceiver?, h.callee?_eq]

theorem outcome_eq (h : Agree scope t t') (n : Node) (known : Bindings) :
    t.outcome scope n known = t'.outcome scope n known := by
  have hassigned : t.assignedFindings scope n = t'.assignedFindings scope n := by
    unfold assignedFindings
    split
    · simp only [checkAssigned, h.types, h.isSelfTyped_eq]
    · rfl
  simp only [outcome, callOutcome, ownerParameters, h.callee?_eq, h.bindArguments_eq, h.typeParameters_eq,
    funext h.typeOf_eq, hassigned]

theorem added_eq (h : Agree scope t t') (hb : ∀ r ∈ n.receiver?, get? b r = get? b' r) :
    t.added scope b n = t'.added scope b' n := by
  have hknown : knownOf b (t.boundReceiver? scope n) = knownOf b' (t.boundReceiver? scope n) := by
    cases hr : t.boundReceiver? scope n with
    | none => rfl
    | some r => simp [knownOf, hb r (t.receiver?_of_boundReceiver? scope hr)]
  rw [added, added, ← h.boundReceiver?_eq, ← h.outcome_eq, hknown]

theorem get?_after_eq (h : Agree scope t t') (hb : get? b r = get? b' r) (n : Node) :
    get? (t.after scope b n) r = get? (t'.after scope b' n) r := by
  by_cases hr : t.boundReceiver? scope n = some r
  · have hknown : knownOf b (some r) = knownOf b' (some r) := by simp [knownOf, hb]
    rw [after, after, ← h.boundReceiver?_eq, ← h.outcome_eq, hr, hknown]
    exact get?_extended_congr hb _ _
  · have hr' : t'.boundReceiver? scope n ≠ some r := h.boundReceiver?_eq n ▸ hr
    rw [after, after, get?_extended_of_ne hr, get?_extended_of_ne hr', hb]

end Agree

end SymbolTable

/-! ### Findings with their places -/

/-- An expression that the check of types comes to: its place, its scope and the expression. -/
structure Visit (α : Type) where
  place : α
  scope : String
  expression : Node

namespace SymbolTable

variable {α : Type}

/-- The findings on expressions, each with the place of its expression. -/
def reports (t : SymbolTable) : NameMap Bindings → List (Visit α) → List (α × Finding)
  | _, [] => []
  | b, v :: vs =>
    let s := t.checkExpression v.scope v.expression { bindings := b }
    s.findings.map (v.place, ·) ++ reports t s.bindings vs

theorem reports_cons (t : SymbolTable) (b : NameMap Bindings) (v : Visit α) (vs : List (Visit α)) :
    t.reports b (v :: vs) =
      (t.added v.scope b v.expression).map (v.place, ·) ++ t.reports (t.after v.scope b v.expression) vs := by
  rw [reports, checkExpression_eq_after, nil_append]

theorem map_snd_reports (t : SymbolTable) (b : NameMap Bindings) (fs : List Finding) (vs : List (Visit α)) :
    (t.checkEach (vs.map fun v => (v.scope, v.expression)) { bindings := b, findings := fs }).findings =
      fs ++ (t.reports b vs).map Prod.snd := by
  induction vs generalizing b fs with
  | nil => simp [reports, checkEach]
  | cons v vs ih =>
    rw [map_cons, checkEach, foldl_cons, checkExpression_eq_after, reports_cons, map_append,
      List.map_map, ← List.append_assoc]
    simpa [checkEach, Function.comp_def] using ih (t.after v.scope b v.expression)
      (fs ++ t.added v.scope b v.expression)

variable [DecidableEq α] {t t' : SymbolTable} {p q : α}

/-- The reports on `q` stay when the expressions of `p` are left out and the table is replaced, if the tables agree
where `q` is, no expression of `p` before can bind the receiver of one of `q`, and the tables agree for every other
expression before that has this receiver. -/
theorem reports_filter_eq (hpq : p ≠ q)
    (hagree : ∀ v ∈ vs, v.place = q → Agree v.scope t t')
    (hbefore : vs.Pairwise fun v w => w.place = q → ∀ r ∈ w.expression.receiver?,
      (v.place = p → t.genericReceiver? v.scope v.expression ≠ some r) ∧
      (v.place ≠ p → v.expression.receiver? = some r → Agree v.scope t t'))
    (hb : ∀ w ∈ vs, w.place = q → ∀ r ∈ w.expression.receiver?, get? b r = get? b' r) :
    (t.reports b vs).filter (·.1 = q) = (t'.reports b' (vs.filter (·.place ≠ p))).filter (·.1 = q) := by
  induction vs generalizing b b' with
  | nil => rfl
  | cons v vs ih =>
    obtain ⟨hfirst, hbefore⟩ := List.pairwise_cons.mp hbefore
    have hagree' : ∀ w ∈ vs, w.place = q → Agree w.scope t t' := fun w hw => hagree w (.tail v hw)
    have hb' : ∀ w ∈ vs, w.place = q → ∀ r ∈ w.expression.receiver?, get? b r = get? b' r :=
      fun w hw => hb w (.tail v hw)
    -- The findings at another place than `q` are no reports on `q`.
    have hother (fs : List Finding) (hq : v.place ≠ q) :
        (fs.map fun f => (v.place, f)).filter (fun r => decide (r.1 = q)) = [] := by
      simp [filter_eq_nil_iff, hq]
    by_cases hp : v.place = p
    · have hq : v.place ≠ q := fun hq => hpq (hp.symm.trans hq)
      rw [filter_cons_of_neg (by simp [hp]), reports_cons, filter_append, hother _ hq, nil_append]
      refine ih hagree' hbefore fun w hw hwq r hr => ?_
      have hgeneric := (hfirst w hw hwq r hr).1 hp
      rw [t.get?_after_of_genericReceiver?_ne v.scope hgeneric, hb' w hw hwq r hr]
    · rw [filter_cons_of_pos (by simp [hp]), reports_cons, reports_cons, filter_append, filter_append]
      by_cases hq : v.place = q
      · have hv := hagree v (.head vs) hq
        rw [← hv.added_eq (hb v (.head vs) hq)]
        exact congrArg _ (ih hagree' hbefore fun w hw hwq r hr => hv.get?_after_eq (hb' w hw hwq r hr) _)
      · rw [hother _ hq, hother _ hq]
        refine ih hagree' hbefore fun w hw hwq r hr => ?_
        by_cases hreceiver : v.expression.receiver? = some r
        · exact ((hfirst w hw hwq r hr).2 hp hreceiver).get?_after_eq (hb' w hw hwq r hr) _
        · rw [t.get?_after_of_receiver?_ne v.scope hreceiver, t'.get?_after_of_receiver?_ne v.scope hreceiver,
            hb' w hw hwq r hr]

end SymbolTable

end BraceLang
